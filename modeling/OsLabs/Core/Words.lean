import Mathlib.Data.List.Destutter
import Mathlib.Data.List.TakeWhile

/-!
# Words

The words of a text are its maximal runs of characters that are not blank.
They stay the same when every run of blanks is squeezed to one.
-/

namespace OsLabs.Words

variable {α : Type*} {blank : α → Bool}

/-- The words of a text. -/
def words (blank : α → Bool) (text : List α) : List (List α) :=
  (text.splitOnP blank).filter (!·.isEmpty)

theorem words_nil : words blank [] = [] := by
  rw [words, List.splitOnP_nil]
  rfl

/-- Blanks in front are no part of a word. -/
theorem words_blanks {blanks : List α} (hblanks : ∀ a ∈ blanks, blank a) (text : List α) :
    words blank (blanks ++ text) = words blank text := by
  induction blanks with
  | nil => rfl
  | cons a blanks ih =>
    obtain ⟨ha, hrest⟩ := List.forall_mem_cons.mp hblanks
    have hsplit : (a :: (blanks ++ text)).splitOnP blank =
        [] :: (blanks ++ text).splitOnP blank := by
      rw [← List.nil_append (a :: _), List.splitOnP_append_cons_of_forall_mem _ a ha]
      exact fun _ hx => nomatch hx
    rw [← ih hrest, List.cons_append, words, hsplit, List.filter_cons_of_neg (by simp), words]

/-- A text without blanks is a word. -/
theorem words_of_not_blank {word : List α} (hne : word ≠ []) (hword : ∀ a ∈ word, blank a = false) :
    words blank word = [word] := by
  rw [words, List.splitOnP_eq_singleton hword, List.filter_cons_of_pos (by simpa using hne)]
  rfl

/-- A run of characters that ends where a blank or the end of the text stands. -/
theorem words_append {word text : List α} (hne : word ≠ [])
    (hword : ∀ a ∈ word, blank a = false) (hends : ∀ a ∈ text.head?, blank a) :
    words blank (word ++ text) = word :: words blank text := by
  cases text with
  | nil => rw [List.append_nil, words_of_not_blank hne hword, words_nil]
  | cons a text =>
    have ha : blank a := hends a rfl
    have hsplit : (word ++ a :: text).splitOnP blank = word :: text.splitOnP blank :=
      List.splitOnP_append_cons_of_forall_mem hword a ha text
    rw [words, hsplit, List.filter_cons_of_pos (by simpa using hne), ← words,
      ← @words_blanks _ blank [a] (fun x hx => List.mem_singleton.mp hx ▸ ha) text]
    rfl

/-- A text begins with blanks; behind them it ends, or a word stands. -/
theorem blanks_word (blank : α → Bool) (text : List α) :
    ∃ blanks word rest, text = blanks ++ (word ++ rest) ∧ (∀ a ∈ blanks, blank a) ∧
      (∀ a ∈ word, blank a = false) ∧ (∀ a ∈ rest.head?, blank a) ∧ (word = [] → rest = []) := by
  obtain ⟨behind, hbehind⟩ : ∃ behind, text.dropWhile blank = behind := ⟨_, rfl⟩
  refine ⟨text.takeWhile blank, behind.takeWhile (!blank ·), behind.dropWhile (!blank ·), ?_, ?_, ?_,
    ?_, ?_⟩
  · rw [List.takeWhile_append_dropWhile, ← hbehind, List.takeWhile_append_dropWhile]
  · exact fun a ha => List.mem_takeWhile_imp ha
  · exact fun a ha => by simpa using List.mem_takeWhile_imp ha
  · intro a ha
    have hhead := List.head?_dropWhile_not (!blank ·) behind
    rw [Option.mem_def.mp ha] at hhead
    simpa using hhead
  · intro hnil
    cases behind with
    | nil => rfl
    | cons a behind =>
      -- the first character behind the blanks is none
      have hhead := List.head?_dropWhile_not blank text
      rw [hbehind, List.head?_cons] at hhead
      rw [List.takeWhile_cons_of_pos (by simpa using hhead)] at hnil
      cases hnil

/-! ## Blanks squeezed -/

section Squeeze

variable [DecidableEq α] {blank : α} {first second : List α}

/-- The text without the blanks that stand behind a blank. -/
def squeeze (blank : α) (text : List α) : List α :=
  text.destutter fun a b => ¬ (a = blank ∧ b = blank)

theorem squeeze_idem (blank : α) (text : List α) :
    squeeze blank (squeeze blank text) = squeeze blank text :=
  List.destutter_idem text _

theorem squeeze_cons_cons (blank a b : α) (text : List α) :
    squeeze blank (a :: b :: text) =
      if a = blank ∧ b = blank then squeeze blank (b :: text)
      else a :: squeeze blank (b :: text) := by
  rw [squeeze, List.destutter_cons_cons, ite_not]
  by_cases hboth : a = blank ∧ b = blank
  · rw [if_pos hboth, if_pos hboth, hboth.1, hboth.2]
    rfl
  · rw [if_neg hboth, if_neg hboth]
    rfl

theorem head?_squeeze (blank : α) (text : List α) :
    (squeeze blank text).head? = text.head? := by
  induction text with
  | nil => rfl
  | cons a text ih =>
    cases text with
    | nil => rfl
    | cons b text =>
      rw [squeeze_cons_cons]
      split
      case isTrue hboth => rw [ih, List.head?_cons, List.head?_cons, hboth.1, hboth.2]
      case isFalse => rfl

/-- Two texts are squeezed apart unless blanks meet. -/
theorem squeeze_append (hmeet : ∀ a ∈ first.getLast?, ∀ b ∈ second.head?, ¬ (a = blank ∧ b = blank)) :
    squeeze blank (first ++ second) = squeeze blank first ++ squeeze blank second := by
  induction first with
  | nil => rfl
  | cons a first ih =>
    cases first with
    | nil =>
      cases second with
      | nil => rfl
      | cons b second =>
        have hapart := hmeet a rfl b rfl
        rw [List.singleton_append, squeeze_cons_cons, if_neg hapart]
        rfl
    | cons b first =>
      have hnext := ih fun x hx => hmeet x (by rwa [List.getLast?_cons_cons])
      rw [List.cons_append, List.cons_append, squeeze_cons_cons, squeeze_cons_cons,
        ← List.cons_append, hnext]
      split <;> rfl

/-- Each maximal run of blanks becomes one blank. -/
theorem squeeze_run (count : ℕ) (hfirst : first.getLast? ≠ some blank)
    (hsecond : second.head? ≠ some blank) :
    squeeze blank (first ++ (List.replicate (count + 1) blank ++ second)) =
      squeeze blank first ++ blank :: squeeze blank second := by
  have hone : squeeze blank (List.replicate (count + 1) blank) = [blank] := by
    induction count with
    | zero => rfl
    | succ count ih =>
      rw [← ih, List.replicate_succ, List.replicate_succ, squeeze_cons_cons, if_pos ⟨rfl, rfl⟩]
  rw [squeeze_append, squeeze_append, hone]
  · rfl
  · rintro a - b hb ⟨-, rfl⟩
    exact hsecond hb
  · rintro a ha b - ⟨rfl, -⟩
    exact hfirst ha

theorem squeeze_of_not_mem {text : List α} (hnot : blank ∉ text) : squeeze blank text = text := by
  induction text with
  | nil => rfl
  | cons a text ih =>
    have hrest := List.not_mem_of_not_mem_cons hnot
    have ha : a ≠ blank := fun h => hnot (h ▸ List.mem_cons_self)
    cases text with
    | nil => rfl
    | cons b text => rw [squeeze_cons_cons, if_neg (not_and_of_not_left _ ha), ih hrest]

/-- Squeezing keeps the words. -/
theorem words_squeeze (blank : α) (text : List α) :
    words (· = blank) (squeeze blank text) = words (· = blank) text := by
  obtain ⟨length, hlength⟩ : ∃ n, text.length = n := ⟨_, rfl⟩
  induction length using Nat.strong_induction_on generalizing text with
  | _ length ih =>
    obtain ⟨blanks, word, rest, rfl, hblanks, hword, hrest, hnil⟩ := blanks_word (· = blank) text
    have hnot : blank ∉ word := fun hmem => by simpa using hword blank hmem
    have hsqueezed : ∀ a ∈ squeeze blank blanks, decide (a = blank) = true := fun a ha =>
      hblanks a ((List.destutter_sublist _ blanks).subset ha)
    have hparts : squeeze blank (blanks ++ (word ++ rest)) =
        squeeze blank blanks ++ (word ++ squeeze blank rest) := by
      by_cases hempty : word = []
      · rw [hempty, hnil hempty, List.append_nil, List.append_nil]
        exact (List.append_nil _).symm
      · rw [squeeze_append, squeeze_append, squeeze_of_not_mem hnot]
        · rintro a ha b - ⟨rfl, -⟩
          exact hnot (List.mem_of_getLast? ha)
        · rintro a - b hb ⟨-, rfl⟩
          rw [List.head?_append_of_ne_nil _ hempty] at hb
          exact hnot (List.mem_of_head? hb)
    rw [hparts, words_blanks hsqueezed, words_blanks hblanks]
    by_cases hempty : word = []
    · rw [hempty, hnil hempty]
      rfl
    · have hshorter : rest.length < length := by
        have hpos := List.length_pos_of_ne_nil hempty
        rw [← hlength, List.length_append, List.length_append]
        omega
      rw [words_append hempty hword (by rwa [head?_squeeze]), words_append hempty hword hrest,
        ih rest.length hshorter rest rfl]

theorem squeeze_ne_nil {text : List α} (hne : text ≠ []) : squeeze blank text ≠ [] := by
  intro hnil
  have hhead := head?_squeeze blank text
  rw [hnil, List.head?_nil] at hhead
  exact hne (List.head?_eq_none_iff.mp hhead.symm)

/-- What other separators leave is squeezed piece by piece. -/
theorem words_squeeze_map {sep : α → Bool} (hsep : sep blank = false) (text : List α) :
    words sep (squeeze blank text) = (words sep text).map (squeeze blank) := by
  have hapart : ∀ {a}, sep a = true → a ≠ blank := by
    rintro a ha rfl
    cases ha.symm.trans hsep
  obtain ⟨length, hlength⟩ : ∃ n, text.length = n := ⟨_, rfl⟩
  induction length using Nat.strong_induction_on generalizing text with
  | _ length ih =>
    obtain ⟨seps, word, rest, rfl, hseps, hword, hrest, hnil⟩ := blanks_word sep text
    have hsame : squeeze blank seps = seps := squeeze_of_not_mem fun hmem => hapart (hseps _ hmem) rfl
    by_cases hempty : word = []
    · rw [hempty, hnil hempty, List.append_nil, List.append_nil, hsame, ← List.append_nil seps,
        words_blanks hseps]
      rfl
    · have hparts : squeeze blank (seps ++ (word ++ rest)) =
          seps ++ (squeeze blank word ++ squeeze blank rest) := by
        rw [squeeze_append, squeeze_append, hsame]
        · rintro a - b hb ⟨-, rfl⟩
          exact hapart (hrest b hb) rfl
        · rintro a ha b - ⟨rfl, -⟩
          exact hapart (hseps a (List.mem_of_getLast? ha)) rfl
      have hshorter : rest.length < length := by
        have hpos := List.length_pos_of_ne_nil hempty
        rw [← hlength, List.length_append, List.length_append]
        omega
      have hnot : ∀ a ∈ squeeze blank word, sep a = false := fun a ha =>
        hword a ((List.destutter_sublist _ word).subset ha)
      rw [hparts, words_blanks hseps, words_blanks hseps, words_append hempty hword hrest,
        words_append (squeeze_ne_nil hempty) hnot (by rwa [head?_squeeze]), List.map_cons,
        ih rest.length hshorter rest rfl]

end Squeeze

end OsLabs.Words
