import OsLabs.Core.CStrings
import OsLabs.Core.Words

/-!
# `splitCommand`

`strtok` writes a NUL behind every token and keeps the place behind it for the
next call.  `splitCommand` stores the tokens one by one, without looking at the
size of the array.
-/

namespace OsLabs.Shell

open OsLabs.Words

/-- The string that `strtok` works on, and the pointer that it keeps between calls. -/
structure Strtok where
  buf : List (BitVec 8)
  saved : Option ℕ

def strspn (seps buf : List (BitVec 8)) (s : ℕ) : Option ℕ := scan (fun c => c ∈ seps) buf s

def strcspn (seps buf : List (BitVec 8)) (s : ℕ) : Option ℕ :=
  scan (fun c => c ≠ 0 ∧ c ∉ seps) buf s

/-- `strtok`: the token, or a null pointer.  No result without a string to go on with. -/
def strtok (str : Option ℕ) (seps : List (BitVec 8)) (t : Strtok) : Option (Option ℕ × Strtok) := do
  let s ← str.or t.saved
  let s ← strspn seps t.buf s
  let c ← t.buf[s]?
  if c = 0 then some (none, { t with saved := some s })
  else
    let stop ← strcspn seps t.buf s
    let c ← t.buf[stop]?
    if c = 0 then some (some s, { t with saved := some stop })
    else some (some s, ⟨t.buf.set stop 0, some (stop + 1)⟩)

variable {n : ℕ}

/-- The loop of `splitCommand`, from a call of `strtok` on; no result where it would store outside
`result`. -/
def splitLoop (str : Option ℕ) (seps : List (BitVec 8)) (t : Strtok)
    (result : Vector (Option ℕ) n) (count : ℕ) : Option (Strtok × Vector (Option ℕ) n × ℕ) :=
  match strtok str seps t with
  | none => none
  | some (none, t) => some (t, result, count)
  | some (some token, t) =>
      if h : count < n then splitLoop none seps t (result.set count (some token) h) (count + 1)
      else none
termination_by n - count

def splitCommand (str : Option ℕ) (seps : List (BitVec 8)) (t : Strtok)
    (result : Vector (Option ℕ) n) : Option (Strtok × Vector (Option ℕ) n × ℕ) :=
  splitLoop str seps t result 0

/-- The strings that the result points to. -/
def resultWords (out : Strtok × Vector (Option ℕ) n × ℕ) : List (Option (List (BitVec 8))) :=
  (out.2.1.toList.take out.2.2).map fun p => p.map fun p => cString (out.1.buf.drop p)

/-- The words between separators. -/
def wordsBy (seps line : List (BitVec 8)) : List (List (BitVec 8)) := words (fun c => c ∈ seps) line

/-! ## One token -/

section Tokens

variable {seps before line blanks word rest tail : List (BitVec 8)} {str saved : Option ℕ}

/-- The separators in front are skipped. -/
theorem strspn_blanks {stop : BitVec 8} (hblanks : ∀ c ∈ blanks, decide (c ∈ seps) = true)
    (hstop : stop ∉ seps) (before tail : List (BitVec 8)) :
    strspn seps (before ++ (blanks ++ stop :: tail)) before.length =
      some (before.length + blanks.length) :=
  scan_run hblanks (decide_eq_false hstop) before

theorem strcspn_word {stop : BitVec 8} (hword : ∀ c ∈ word, decide (c ∈ seps) = false)
    (hnul : 0 ∉ word) (hstop : stop = 0 ∨ stop ∈ seps) (before tail : List (BitVec 8)) :
    strcspn seps (before ++ (word ++ stop :: tail)) before.length =
      some (before.length + word.length) := by
  refine scan_run (fun c hc => ?_) ?_ before
  · rw [decide_eq_true_eq]
    exact ⟨fun hzero => hnul (hzero ▸ hc), of_decide_eq_false (hword c hc)⟩
  · rw [decide_eq_false_iff_not, not_and_or, not_not, not_not]
    exact hstop

/-- Behind separators the string ends. -/
theorem strtok_end (hseps : 0 ∉ seps) (hblanks : ∀ c ∈ blanks, decide (c ∈ seps) = true)
    (hstr : str.or saved = some before.length) :
    strtok str seps ⟨before ++ (blanks ++ 0 :: tail), saved⟩ =
      some (none, ⟨before ++ (blanks ++ 0 :: tail), some (before.length + blanks.length)⟩) := by
  have hread := read_behind (before ++ blanks) tail 0
  rw [List.length_append, List.append_assoc] at hread
  rw [strtok]
  dsimp only
  simp only [Option.bind_eq_bind, hstr, Option.bind_some, strspn_blanks hblanks hseps, hread,
    if_true]

/-- Behind separators a word stands; `stop` is what ends it. -/
theorem strtok_word {stop : BitVec 8} (hblanks : ∀ c ∈ blanks, decide (c ∈ seps) = true)
    (hword : ∀ c ∈ word, decide (c ∈ seps) = false) (hne : word ≠ []) (hnul : 0 ∉ word)
    (hstop : stop = 0 ∨ stop ∈ seps) (hstr : str.or saved = some before.length)
    (tail : List (BitVec 8)) :
    strtok str seps ⟨before ++ (blanks ++ (word ++ stop :: tail)), saved⟩ =
      some (some (before.length + blanks.length),
        if stop = 0 then
          ⟨before ++ (blanks ++ (word ++ stop :: tail)),
            some (before.length + blanks.length + word.length)⟩
        else
          ⟨before ++ (blanks ++ (word ++ 0 :: tail)),
            some (before.length + blanks.length + word.length + 1)⟩) := by
  obtain ⟨c, word, rfl⟩ := List.exists_cons_of_ne_nil hne
  have hc : c ∉ seps := of_decide_eq_false (hword c List.mem_cons_self)
  have hzero : c ≠ 0 := fun h => hnul (h ▸ List.mem_cons_self)
  have hfirst := read_behind (before ++ blanks) (word ++ stop :: tail) c
  have hskip := strcspn_word hword hnul hstop (before ++ blanks) tail
  have hlast := read_behind (before ++ (blanks ++ c :: word)) tail stop
  have hset := set_behind (before ++ (blanks ++ c :: word)) tail stop 0
  rw [List.length_append, List.append_assoc] at hfirst hskip
  rw [List.length_append, List.length_append, List.append_assoc, List.append_assoc,
    ← Nat.add_assoc] at hlast hset
  have hspan := strspn_blanks hblanks hc before (word ++ stop :: tail)
  rw [List.cons_append] at hskip hlast hset ⊢
  rw [strtok]
  dsimp only
  simp only [Option.bind_eq_bind, hstr, Option.bind_some, hspan, hfirst, if_neg hzero, hskip, hlast]
  split
  · rfl
  · rw [hset]
    simp only [List.append_assoc, List.cons_append]

end Tokens

/-! ## All tokens -/

section Splitting

variable {seps tail : List (BitVec 8)} {t t' : Strtok} {str : Option ℕ} {count : ℕ}
variable {result : Vector (Option ℕ) n}

theorem splitLoop_end (hstrtok : strtok str seps t = some (none, t')) :
    splitLoop str seps t result count = some (t', result, count) := by
  rw [splitLoop, hstrtok]

theorem splitLoop_token {p : ℕ} (hstrtok : strtok str seps t = some (some p, t'))
    (hlt : count < n) :
    splitLoop str seps t result count =
      splitLoop none seps t' (result.set count (some p) hlt) (count + 1) := by
  rw [splitLoop, hstrtok]
  exact dif_pos hlt

theorem splitLoop_full {p : ℕ} (hstrtok : strtok str seps t = some (some p, t'))
    (hfull : n ≤ count) : splitLoop str seps t result count = none := by
  rw [splitLoop, hstrtok]
  exact dif_neg (Nat.not_lt.mpr hfull)

/-- `result` with pointers stored from `count` on. -/
def storedFrom (result : List (Option ℕ)) (count : ℕ) (places : List ℕ) : List (Option ℕ) :=
  result.take count ++ places.map some ++ result.drop (count + places.length)

theorem storedFrom_nil (result : List (Option ℕ)) (count : ℕ) :
    storedFrom result count [] = result := by
  rw [storedFrom, List.map_nil, List.append_nil]
  exact List.take_append_drop count result

theorem storedFrom_set {result : List (Option ℕ)} (hlt : count < result.length) (p : ℕ)
    (places : List ℕ) :
    storedFrom (result.set count (some p)) (count + 1) places =
      storedFrom result count (p :: places) := by
  have htake : (result.set count (some p)).take (count + 1) = result.take count ++ [some p] := by
    rw [List.take_succ_eq_append_getElem (by rwa [List.length_set]), List.take_set_of_le le_rfl,
      List.getElem_set_self]
  rw [storedFrom, htake, List.drop_set_of_lt (by omega), storedFrom, List.length_cons,
    List.map_cons, Nat.add_assoc, Nat.add_comm 1, List.append_assoc (result.take count)]
  rfl

/-- What the splitting of a line leaves: NULs in the line, and pointers to the words in the result. -/
structure SplitsTo (seps before line tail : List (BitVec 8)) (result : List (Option ℕ)) (count : ℕ)
    (out : Strtok × Vector (Option ℕ) n × ℕ) : Prop where
  length : out.2.2 = count + (wordsBy seps line).length
  holds : ∃ line' places, line'.length = line.length ∧
    out.1.buf = before ++ (line' ++ 0 :: tail) ∧
    out.2.1.toList = storedFrom result count (places.map (before.length + ·)) ∧
    Placed (line' ++ [0]) 0 (wordsBy seps line) places
  saved : out.1.saved = some (before.length + line.length)

/-- How `strtok` cuts a line with a word: blanks, the word, the NUL that it writes unless the line
ends there, and what is left for the next call. -/
structure Cut (seps line blanks word gap behind : List (BitVec 8)) : Prop where
  parts : ∃ rest, line = blanks ++ (word ++ rest) ∧ rest.length = gap.length + behind.length
  words : wordsBy seps line = word :: wordsBy seps behind
  nul : 0 ∉ word
  ends : gap = [0] ∨ gap = [] ∧ behind = []
  nul_behind : 0 ∉ behind
  shorter : behind.length < line.length

section Steps

variable {before line : List (BitVec 8)} {saved : Option ℕ}

/-- One call: the line has no word, or its first one is cut off. -/
theorem strtok_line (hseps : 0 ∉ seps) (hnul : 0 ∉ line) (hstr : str.or saved = some before.length)
    (tail : List (BitVec 8)) :
    wordsBy seps line = [] ∧ strtok str seps ⟨before ++ (line ++ 0 :: tail), saved⟩ =
        some (none, ⟨before ++ (line ++ 0 :: tail), some (before.length + line.length)⟩) ∨
      ∃ blanks word gap behind, Cut seps line blanks word gap behind ∧
        strtok str seps ⟨before ++ (line ++ 0 :: tail), saved⟩ =
          some (some (before.length + blanks.length),
            ⟨before ++ (blanks ++ (word ++ gap)) ++ (behind ++ 0 :: tail),
              some (before ++ (blanks ++ (word ++ gap))).length⟩) := by
  obtain ⟨blanks, word, rest, rfl, hblanks, hword, hrest, hnil⟩ :=
    blanks_word (fun c => decide (c ∈ seps)) line
  by_cases hempty : word = []
  · left
    rw [hempty, hnil hempty, List.append_nil, List.append_nil]
    refine ⟨?_, strtok_end hseps hblanks hstr⟩
    rw [← List.append_nil blanks, wordsBy, words_blanks hblanks]
    exact words_nil
  · right
    have hpos := List.length_pos_of_ne_nil hempty
    have hwords : wordsBy seps (blanks ++ (word ++ rest)) = word :: wordsBy seps rest := by
      rw [wordsBy, words_blanks hblanks]
      exact words_append hempty hword hrest
    obtain ⟨hnulWord, hnulRest⟩ : 0 ∉ word ∧ 0 ∉ rest := by
      rw [List.mem_append, List.mem_append, not_or, not_or] at hnul
      exact hnul.2
    cases rest with
    | nil =>
      refine ⟨blanks, word, [], [], ⟨⟨[], rfl, rfl⟩, hwords, hnulWord, Or.inr ⟨rfl, rfl⟩, hnulRest,
        ?_⟩, ?_⟩
      · rw [List.length_append, List.length_append, List.length_nil]
        omega
      · have htoken := strtok_word hblanks hword hempty hnulWord (Or.inl rfl) hstr tail
        rw [if_pos rfl] at htoken
        simp only [List.append_assoc, List.nil_append, List.append_nil, List.length_append,
          ← Nat.add_assoc]
        exact htoken
    | cons sep rest =>
      have hsep : sep ∈ seps := of_decide_eq_true (hrest sep rfl)
      have hbehind : wordsBy seps (sep :: rest) = wordsBy seps rest :=
        @words_blanks _ _ [sep] (fun c hc => List.mem_singleton.mp hc ▸ decide_eq_true hsep) rest
      rw [hbehind] at hwords
      refine ⟨blanks, word, [0], rest, ⟨⟨sep :: rest, rfl, Nat.add_comm rest.length 1⟩, hwords,
        hnulWord, Or.inl rfl, List.not_mem_of_not_mem_cons hnulRest, ?_⟩, ?_⟩
      · rw [List.length_append, List.length_append, List.length_cons]
        omega
      · have htoken := strtok_word hblanks hword hempty hnulWord (Or.inr hsep) hstr
          (rest ++ 0 :: tail)
        have hzero : sep ≠ 0 := fun h => hseps (h ▸ hsep)
        rw [if_neg hzero] at htoken
        simp only [List.append_assoc, List.cons_append, List.nil_append, List.length_append,
          List.length_singleton, ← Nat.add_assoc]
        exact htoken

/-- A word that is cut off, in front of what is split next. -/
theorem SplitsTo.cut {blanks word gap behind : List (BitVec 8)}
    {out : Strtok × Vector (Option ℕ) n × ℕ} (hcut : Cut seps line blanks word gap behind)
    (hlt : count < n)
    (hsplits : SplitsTo seps (before ++ (blanks ++ (word ++ gap))) behind tail
      (result.toList.set count (some (before.length + blanks.length))) (count + 1) out) :
    SplitsTo seps before line tail result.toList count out := by
  obtain ⟨hlength, ⟨line', places, hsame, hbuf, hresult, hplaced⟩, hsaved⟩ := hsplits
  obtain ⟨rest, rfl, hrest⟩ := hcut.parts
  obtain ⟨more, hmore⟩ : ∃ more, gap ++ (line' ++ [0]) = 0 :: more := by
    rcases hcut.ends with rfl | ⟨rfl, rfl⟩
    · exact ⟨_, rfl⟩
    · rw [List.eq_nil_of_length_eq_zero hsame]
      exact ⟨_, rfl⟩
  have hplace : (before ++ (blanks ++ (word ++ gap))).length =
      before.length + (blanks ++ (word ++ gap)).length := List.length_append
  have hwhole : blanks ++ (word ++ (gap ++ line')) ++ [0] =
      blanks ++ (word ++ gap) ++ (line' ++ [0] ++ []) := by
    simp only [List.append_assoc, List.append_nil]
  refine ⟨?_, ⟨blanks ++ (word ++ (gap ++ line')),
    blanks.length :: places.map ((blanks ++ (word ++ gap)).length + ·), ?_, ?_, ?_, ?_⟩, ?_⟩
  · rw [hlength, hcut.words, List.length_cons, Nat.add_assoc, Nat.add_comm 1]
  · simp only [List.length_append, hsame, hrest]
  · rw [hbuf]
    simp only [List.append_assoc]
  · rw [hresult, storedFrom_set (by rwa [Vector.length_toList]), hplace, List.map_cons,
      List.map_map]
    simp only [Function.comp_def, Nat.add_assoc]
  · rw [hcut.words]
    refine ⟨Nat.zero_le _, ⟨hcut.nul, more, ?_⟩, ?_⟩
    · rw [List.append_assoc, List.drop_left, List.append_assoc, List.append_assoc, hmore]
    · have hlater := hplaced.within (blanks ++ (word ++ gap)) []
      rw [hwhole]
      refine hlater.of_le ?_
      rw [List.length_append, List.length_append]
      omega
  · rw [hsaved, hplace]
    simp only [List.length_append, hrest, Nat.add_assoc]

end Steps

/-- The tokens are the words between the separators, as far as the result has room. -/
theorem splitLoop_words (hseps : 0 ∉ seps) (line : List (BitVec 8)) :
    ∀ (before : List (BitVec 8)) (str saved : Option ℕ) (result : Vector (Option ℕ) n) (count : ℕ),
      0 ∉ line → str.or saved = some before.length →
      count + (wordsBy seps line).length ≤ n →
      ∃ out, splitLoop str seps ⟨before ++ (line ++ 0 :: tail), saved⟩ result count = some out ∧
        SplitsTo seps before line tail result.toList count out := by
  obtain ⟨length, hlength⟩ : ∃ n, line.length = n := ⟨_, rfl⟩
  induction length using Nat.strong_induction_on generalizing line with
  | _ length ih =>
    intro before str saved result count hnul hstr hroom
    obtain ⟨hwords, hend⟩ | ⟨blanks, word, gap, behind, hcut, htoken⟩ :=
      strtok_line hseps hnul hstr tail
    · refine ⟨_, splitLoop_end hend, ?_, ⟨line, [], rfl, rfl, (storedFrom_nil _ _).symm, ?_⟩, rfl⟩
      · rw [hwords]
        rfl
      · rw [hwords]
        trivial
    · rw [hcut.words, List.length_cons] at hroom
      have hlt : count < n := by omega
      obtain ⟨out, hout, hsplits⟩ := ih behind.length (hlength ▸ hcut.shorter) behind rfl
        (before ++ (blanks ++ (word ++ gap))) none _
        (result.set count (some (before.length + blanks.length)) hlt) (count + 1)
        hcut.nul_behind rfl (by omega)
      rw [Vector.toList_set] at hsplits
      exact ⟨out, (splitLoop_token htoken hlt).trans hout, hsplits.cut hcut hlt⟩

/-- More words than there is room for. -/
theorem splitLoop_tooMany (hseps : 0 ∉ seps) (line : List (BitVec 8)) :
    ∀ (before : List (BitVec 8)) (str saved : Option ℕ) (result : Vector (Option ℕ) n) (count : ℕ),
      0 ∉ line → str.or saved = some before.length →
      n < count + (wordsBy seps line).length → count ≤ n →
      splitLoop str seps ⟨before ++ (line ++ 0 :: tail), saved⟩ result count = none := by
  obtain ⟨length, hlength⟩ : ∃ n, line.length = n := ⟨_, rfl⟩
  induction length using Nat.strong_induction_on generalizing line with
  | _ length ih =>
    intro before str saved result count hnul hstr hmany hle
    obtain ⟨hwords, -⟩ | ⟨blanks, word, gap, behind, hcut, htoken⟩ :=
      strtok_line hseps hnul hstr tail
    · rw [hwords, List.length_nil] at hmany
      omega
    · rw [hcut.words, List.length_cons] at hmany
      rcases hle.eq_or_lt with hfull | hlt
      · exact splitLoop_full htoken hfull.ge
      · rw [splitLoop_token htoken hlt]
        exact ih behind.length (hlength ▸ hcut.shorter) behind rfl _ none _ _ _ hcut.nul_behind rfl
          (by omega) hlt

/-- Where the words of the line are found afterwards. -/
theorem SplitsTo.placed {before line : List (BitVec 8)} {out : Strtok × Vector (Option ℕ) n × ℕ}
    (hsplits : SplitsTo seps before line tail result.toList 0 out) :
    ∃ places, Placed out.1.buf before.length (wordsBy seps line) places ∧
      out.2.1.toList = storedFrom result.toList 0 places := by
  obtain ⟨line', places, -, hbuf, hresult, hplaced⟩ := hsplits.holds
  refine ⟨places.map (before.length + ·), ?_, hresult⟩
  have hwithin := hplaced.within before tail
  rw [List.append_assoc, List.singleton_append] at hwithin
  rw [hbuf]
  exact hwithin

theorem SplitsTo.resultWords {before line : List (BitVec 8)}
    {out : Strtok × Vector (Option ℕ) n × ℕ}
    (hsplits : SplitsTo seps before line tail result.toList 0 out) :
    resultWords out = (wordsBy seps line).map some := by
  obtain ⟨places, hplaced, hresult⟩ := hsplits.placed
  have hlength : out.2.2 = (places.map some).length := by
    rw [hsplits.length, List.length_map, hplaced.length_eq, Nat.zero_add]
  rw [Shell.resultWords, hresult, storedFrom, List.take_zero, List.nil_append, hlength,
    List.take_left, ← hplaced.map_cString, List.map_map, List.map_map]
  rfl

/-- The tokens that `splitCommand` stores, when there is room for them. -/
theorem splitCommand_resultWords {before line : List (BitVec 8)} {saved : Option ℕ}
    (hseps : 0 ∉ seps) (hnul : 0 ∉ line) (hstr : str.or saved = some before.length)
    (tail : List (BitVec 8)) (result : Vector (Option ℕ) n) :
    (splitCommand str seps ⟨before ++ (line ++ 0 :: tail), saved⟩ result).map resultWords =
      if (wordsBy seps line).length ≤ n then some ((wordsBy seps line).map some) else none := by
  split
  case isTrue hroom =>
    obtain ⟨out, hout, hsplits⟩ := @splitLoop_words n seps tail hseps line before str saved result
      0 hnul hstr (by rwa [Nat.zero_add])
    rw [splitCommand, hout, Option.map_some, hsplits.resultWords]
  case isFalse hmany =>
    rw [splitCommand, splitLoop_tooMany hseps line before str saved result 0 hnul hstr
      (by omega) (Nat.zero_le n)]
    rfl

end Splitting

end OsLabs.Shell
