import OsLabs.Jos.Monitor

/-!
# How a command line is split

The pointers in `argv` are those of the words of the line, each of which ends
with a NUL when `runcmd` has gone over it.
-/

namespace OsLabs.Jos

open OsLabs.Words (words)

/-- The words of a line. -/
def lineWords (line : List (BitVec 8)) : List (List (BitVec 8)) := words isBlank line

/-! ## Loops over characters -/

section Loops

variable {buf before : List (BitVec 8)} {pos : ℕ} {c : BitVec 8}

theorem blank_ne_nul (hblank : isBlank c) : c ≠ 0 := by
  rintro rfl
  exact absurd hblank (by decide)

theorem gobble_of_read (hread : buf[pos]? = some c) :
    gobble buf pos =
      if c ≠ 0 ∧ isBlank c then gobble (buf.set pos 0) (pos + 1) else some (buf, pos) := by
  rw [gobble]
  split
  · rename_i hnone
    cases hnone.symm.trans hread
  · rename_i hsome
    cases hsome.symm.trans hread
    rfl

theorem skipWord_of_read (hread : buf[pos]? = some c) :
    skipWord buf pos = if c ≠ 0 ∧ ¬ isBlank c then skipWord buf (pos + 1) else some pos := by
  rw [skipWord]
  split
  · rename_i hnone
    cases hnone.symm.trans hread
  · rename_i hsome
    cases hsome.symm.trans hread
    rfl

/-- Blanks are overwritten, up to the first character that is none. -/
theorem gobble_blanks {blanks tail : List (BitVec 8)} {stop : BitVec 8}
    (hblanks : ∀ c ∈ blanks, isBlank c) (hstop : isBlank stop = false)
    (before : List (BitVec 8)) :
    gobble (before ++ (blanks ++ stop :: tail)) before.length =
      some (before ++ (List.replicate blanks.length 0 ++ stop :: tail),
        before.length + blanks.length) := by
  induction blanks generalizing before with
  | nil =>
    rw [List.nil_append, gobble_of_read (read_behind before tail stop), if_neg (by simp [hstop])]
    rfl
  | cons c blanks ih =>
    obtain ⟨hc, hrest⟩ := List.forall_mem_cons.mp hblanks
    have hnext := ih hrest (before ++ [0])
    rw [List.length_append, List.length_singleton, List.append_assoc, List.append_assoc] at hnext
    rw [List.cons_append, gobble_of_read (read_behind before _ c), if_pos ⟨blank_ne_nul hc, hc⟩,
      set_behind]
    refine hnext.trans ?_
    rw [List.length_cons, List.replicate_succ, Nat.add_assoc, Nat.add_comm 1]
    rfl

/-- A word is skipped. -/
theorem skipWord_word {word tail : List (BitVec 8)} {stop : BitVec 8}
    (hword : ∀ c ∈ word, isBlank c = false) (hnul : 0 ∉ word)
    (hstop : stop = 0 ∨ isBlank stop) (before : List (BitVec 8)) :
    skipWord (before ++ (word ++ stop :: tail)) before.length =
      some (before.length + word.length) := by
  induction word generalizing before with
  | nil =>
    rw [List.nil_append, skipWord_of_read (read_behind before tail stop), if_neg]
    · rfl
    · exact fun h => hstop.elim h.1 h.2
  | cons c word ih =>
    obtain ⟨hc, hrest⟩ := List.forall_mem_cons.mp hword
    obtain ⟨hzero, hnul⟩ := not_or.mp (List.mem_cons.not.mp hnul)
    have hnext := ih hrest hnul (before ++ [c])
    rw [List.length_append, List.length_singleton, List.append_assoc] at hnext
    rw [List.cons_append, skipWord_of_read (read_behind before _ c),
      if_pos ⟨Ne.symm hzero, by simp [hc]⟩]
    refine hnext.trans ?_
    rw [List.length_cons, Nat.add_assoc, Nat.add_comm 1]

end Loops

/-! ## The whole line -/

section Lines

variable {buf before line tail : List (BitVec 8)} {argc : ℕ} {argv : Argv}

/-- `argv` holds the pointers, and nothing else up to `argc`. -/
def ArgvHolds (argv : Argv) (places : List ℕ) : Prop :=
  argv.toList.take places.length = places.map some

theorem ArgvHolds.set {places : List ℕ} (hholds : ArgvHolds argv places)
    (hlt : places.length < maxArgs) (p : ℕ) :
    ArgvHolds (argv.set places.length (some p) hlt) (places ++ [p]) := by
  rw [ArgvHolds, List.length_append, List.length_singleton, Vector.toList_set,
    List.take_succ_eq_append_getElem (by simp [hlt]), List.take_set_of_le le_rfl,
    List.getElem_set_self, hholds, List.map_append, List.map_singleton]

/-- The null pointer is put behind the pointers. -/
theorem ArgvHolds.set_none {places : List ℕ} (hholds : ArgvHolds argv places)
    (hlt : places.length < maxArgs) : ArgvHolds (argv.set places.length none hlt) places := by
  rw [ArgvHolds, Vector.toList_set, List.take_set_of_le le_rfl]
  exact hholds

theorem ArgvHolds.get {places : List ℕ} (hholds : ArgvHolds argv places) {i : ℕ}
    (hi : i < places.length) : (argv[i]?).join = some places[i] := by
  have hread := congrArg (·[i]?) hholds
  simp only [List.getElem?_take_of_lt hi, List.getElem?_map, List.getElem?_eq_getElem hi,
    Option.map_some, Vector.getElem?_toList] at hread
  rw [hread]
  rfl

/-- Nothing but blanks is left of the line. -/
theorem splitArgs_end {blanks : List (BitVec 8)} (hblanks : ∀ c ∈ blanks, isBlank c)
    (hlt : argc < maxArgs) :
    splitArgs (before ++ (blanks ++ 0 :: tail)) before.length argc argv =
      some (.args (before ++ (List.replicate blanks.length 0 ++ 0 :: tail)) argc
        (argv.set argc none hlt)) := by
  have hread := read_behind (before ++ List.replicate blanks.length 0) tail 0
  rw [List.length_append, List.length_replicate, List.append_assoc] at hread
  rw [splitArgs, gobble_blanks hblanks (by decide) before]
  dsimp only
  rw [hread]
  dsimp only
  rw [if_pos rfl, dif_pos hlt]

/-- A word, behind blanks. -/
theorem splitArgs_word {blanks word rest : List (BitVec 8)} (hblanks : ∀ c ∈ blanks, isBlank c)
    (hword : ∀ c ∈ word, isBlank c = false) (hne : word ≠ []) (hnul : 0 ∉ word)
    (hrest : ∀ c ∈ rest.head?, isBlank c) (hlt : argc < maxArgs) :
    splitArgs (before ++ (blanks ++ (word ++ rest) ++ 0 :: tail)) before.length argc argv =
      if argc = maxArgs - 1 then some .tooMany
      else
        splitArgs (before ++ List.replicate blanks.length 0 ++ word ++ (rest ++ 0 :: tail))
          (before ++ List.replicate blanks.length 0 ++ word).length (argc + 1)
          (argv.set argc (some (before ++ List.replicate blanks.length 0).length) hlt) := by
  obtain ⟨c, word, rfl⟩ := List.exists_cons_of_ne_nil hne
  have hc : isBlank c = false := hword c List.mem_cons_self
  have hzero : c ≠ 0 := fun h => hnul (h ▸ List.mem_cons_self)
  obtain ⟨start, hstart⟩ : ∃ start, before ++ List.replicate blanks.length 0 = start := ⟨_, rfl⟩
  have hlength : before.length + blanks.length = start.length := by
    rw [← hstart, List.length_append, List.length_replicate]
  have hgobble := @gobble_blanks blanks (word ++ rest ++ 0 :: tail) c hblanks hc before
  rw [← List.append_assoc before (List.replicate _ _), hstart, hlength] at hgobble
  -- what ends the word
  obtain ⟨stop, behind, hbehind, hstop⟩ : ∃ stop behind, rest ++ 0 :: tail = stop :: behind ∧
      (stop = 0 ∨ isBlank stop) := by
    cases rest with
    | nil => exact ⟨0, tail, rfl, Or.inl rfl⟩
    | cons stop rest => exact ⟨stop, rest ++ 0 :: tail, rfl, Or.inr (hrest stop rfl)⟩
  have hskip := @skipWord_word (c :: word) behind stop hword hnul hstop start
  have hread := read_behind start (word ++ rest ++ 0 :: tail) c
  have hsame : before ++ (blanks ++ (c :: word ++ rest) ++ 0 :: tail) =
      before ++ (blanks ++ c :: (word ++ rest ++ 0 :: tail)) := by
    simp only [List.append_assoc, List.cons_append]
  have hwhole : start ++ c :: (word ++ rest ++ 0 :: tail) =
      start ++ (c :: word ++ stop :: behind) := by
    rw [← hbehind]
    simp only [List.append_assoc, List.cons_append]
  rw [hsame, splitArgs, hgobble]
  dsimp only
  rw [hread]
  dsimp only
  rw [if_neg hzero]
  refine if_congr Iff.rfl rfl ?_
  rw [dif_pos hlt, hwhole, hskip, hstart, hbehind, List.length_append, List.append_assoc]

/-- A line of no more words than there is room for. -/
theorem splitArgs_args (line : List (BitVec 8)) :
    ∀ (before : List (BitVec 8)) (argv : Argv) (places : List ℕ), 0 ∉ line →
      ArgvHolds argv places → places.length + (lineWords line).length < maxArgs →
      ∃ buf argv' new,
        splitArgs (before ++ (line ++ 0 :: tail)) before.length places.length argv =
          some (.args buf (places.length + (lineWords line).length) argv') ∧
        ArgvHolds argv' (places ++ new) ∧ Placed buf before.length (lineWords line) new ∧
        ∃ behind, buf = before ++ behind ∧
          ((∀ c ∈ line.head?, isBlank c) → ∃ more, behind = 0 :: more) := by
  obtain ⟨length, hlength⟩ : ∃ n, line.length = n := ⟨_, rfl⟩
  induction length using Nat.strong_induction_on generalizing line with
  | _ length ih =>
    intro before argv places hnul hholds hroom
    obtain ⟨blanks, word, rest, rfl, hblanks, hword, hrest, hnil⟩ :=
      Words.blanks_word isBlank line
    by_cases hempty : word = []
    · obtain rfl : rest = [] := hnil hempty
      subst hempty
      have hwords : lineWords (blanks ++ ([] ++ [])) = [] := by
        rw [lineWords, Words.words_blanks hblanks]
        exact Words.words_nil
      rw [hwords, List.length_nil, Nat.add_zero] at hroom ⊢
      rw [List.append_nil, List.append_nil, splitArgs_end hblanks hroom]
      refine ⟨_, _, [], rfl, ?_, trivial, _, rfl, fun _ => ?_⟩
      · rw [List.append_nil]
        exact hholds.set_none hroom
      · cases blanks with
        | nil => exact ⟨tail, rfl⟩
        | cons c blanks => exact ⟨_, rfl⟩
    · have hwords : lineWords (blanks ++ (word ++ rest)) = word :: lineWords rest := by
        rw [lineWords, Words.words_blanks hblanks]
        exact Words.words_append hempty hword hrest
      have hnulWord : 0 ∉ word := fun h =>
        hnul (List.mem_append_right _ (List.mem_append_left _ h))
      have hnulRest : 0 ∉ rest := fun h =>
        hnul (List.mem_append_right _ (List.mem_append_right _ h))
      rw [hwords, List.length_cons] at hroom ⊢
      have hlt : places.length < maxArgs := by omega
      have hnotLast : places.length ≠ maxArgs - 1 := by
        rw [show maxArgs = 16 from rfl] at hroom ⊢
        omega
      obtain ⟨start, hstart⟩ : ∃ start, before ++ List.replicate blanks.length 0 = start := ⟨_, rfl⟩
      rw [splitArgs_word hblanks hword hempty hnulWord hrest hlt, if_neg hnotLast, hstart]
      have hshorter : rest.length < length := by
        have hpos := List.length_pos_of_ne_nil hempty
        rw [← hlength, List.length_append, List.length_append]
        omega
      have hnext := ih rest.length hshorter rest rfl (start ++ word)
        (argv.set places.length (some start.length) hlt) (places ++ [start.length]) hnulRest
        (hholds.set hlt start.length) (by rw [List.length_append, List.length_singleton]; omega)
      obtain ⟨buf, argv', new, hsplit, hnew, hplaced, behind, hbuf, hzero⟩ := hnext
      obtain ⟨more, rfl⟩ := hzero hrest
      have hcount : (places ++ [start.length]).length = places.length + 1 := by
        rw [List.length_append, List.length_singleton]
      rw [hcount] at hsplit
      rw [List.length_append] at hplaced
      refine ⟨buf, argv', start.length :: new, ?_, ?_, ⟨?_, ⟨hnulWord, more, ?_⟩, hplaced⟩,
        List.replicate blanks.length 0 ++ (word ++ 0 :: more), ?_, fun hblank => ?_⟩
      · rw [hsplit, Nat.add_assoc, Nat.add_comm 1]
      · rw [List.append_cons]
        exact hnew
      · rw [← hstart, List.length_append]
        exact Nat.le_add_right _ _
      · rw [hbuf, List.append_assoc, List.drop_left]
      · rw [hbuf, ← hstart, List.append_assoc, List.append_assoc]
      · cases blanks with
        | nil =>
          obtain ⟨c, word, rfl⟩ := List.exists_cons_of_ne_nil hempty
          have hc := hblank c rfl
          rw [hword c List.mem_cons_self] at hc
          cases hc
        | cons c blanks => exact ⟨_, rfl⟩

/-- A line of more words. -/
theorem splitArgs_tooMany (line : List (BitVec 8)) :
    ∀ (before : List (BitVec 8)) (argc : ℕ) (argv : Argv), 0 ∉ line → argc < maxArgs →
      maxArgs ≤ argc + (lineWords line).length →
      splitArgs (before ++ (line ++ 0 :: tail)) before.length argc argv = some .tooMany := by
  obtain ⟨length, hlength⟩ : ∃ n, line.length = n := ⟨_, rfl⟩
  induction length using Nat.strong_induction_on generalizing line with
  | _ length ih =>
    intro before argc argv hnul hlt hmany
    obtain ⟨blanks, word, rest, rfl, hblanks, hword, hrest, hnil⟩ :=
      Words.blanks_word isBlank line
    rw [lineWords, Words.words_blanks hblanks] at hmany
    by_cases hempty : word = []
    · rw [hempty, hnil hempty, List.append_nil, Words.words_nil] at hmany
      exact absurd hmany (Nat.not_le.mpr hlt)
    · have hnulWord : 0 ∉ word := fun h =>
        hnul (List.mem_append_right _ (List.mem_append_left _ h))
      have hnulRest : 0 ∉ rest := fun h =>
        hnul (List.mem_append_right _ (List.mem_append_right _ h))
      rw [Words.words_append hempty hword hrest, List.length_cons] at hmany
      rw [splitArgs_word hblanks hword hempty hnulWord hrest hlt]
      by_cases hlast : argc = maxArgs - 1
      · rw [if_pos hlast]
      · have hshorter : rest.length < length := by
          have hpos := List.length_pos_of_ne_nil hempty
          rw [← hlength, List.length_append, List.length_append]
          omega
        rw [if_neg hlast]
        refine ih rest.length hshorter rest rfl _ _ _ hnulRest (by omega) ?_
        rw [lineWords]
        omega

end Lines

/-! ## The command -/

/-- The command of that name. -/
def commandNamed (name : List (BitVec 8)) : Option Command :=
  (commands.find? fun entry => entry.1 == name).map Prod.snd

section Names

variable {word name rest : List (BitVec 8)}

theorem strcmp_eq (hword : 0 ∉ word) (hname : 0 ∉ name) (rest : List (BitVec 8)) :
    ∃ order, strcmp (word ++ 0 :: rest) (name ++ [0]) = some order ∧ (order = 0 ↔ name = word) := by
  induction word generalizing name with
  | nil =>
    cases name with
    | nil => exact ⟨0, rfl, iff_of_true rfl rfl⟩
    | cons d name =>
      refine ⟨_, rfl, iff_of_false ?_ nofun⟩
      have hd : d.toNat ≠ 0 := fun h =>
        hname ((show d = 0 from BitVec.eq_of_toNat_eq h) ▸ List.mem_cons_self)
      show ((0 : ℕ) : ℤ) - d.toNat ≠ 0
      omega
  | cons c word ih =>
    obtain ⟨hc, hword⟩ := not_or.mp (List.mem_cons.not.mp hword)
    cases name with
    | nil =>
      have hne : ¬ (c ≠ 0 ∧ c = 0) := fun h => h.1 h.2
      have hnat : c.toNat ≠ 0 := fun h => hc (BitVec.eq_of_toNat_eq h).symm
      refine ⟨_, if_neg hne, iff_of_false ?_ nofun⟩
      show (c.toNat : ℤ) - (0 : ℕ) ≠ 0
      omega
    | cons d name =>
      rw [List.cons_append, List.cons_append, strcmp]
      by_cases hsame : c = d
      · obtain ⟨order, horder, hzero⟩ := ih hword (fun h => hname (List.mem_cons_of_mem _ h))
        rw [if_pos ⟨Ne.symm hc, hsame⟩]
        refine ⟨order, horder, hzero.trans ?_⟩
        rw [List.cons.injEq, and_iff_right hsame.symm]
      · have hnat : c.toNat ≠ d.toNat := fun h => hsame (BitVec.eq_of_toNat_eq h)
        rw [if_neg fun h => hsame h.2]
        refine ⟨_, rfl, iff_of_false (by omega) fun h => hsame (List.cons.inj h).1.symm⟩

/-- The first command of the table with the name that the word is. -/
theorem findCommand_eq (hword : 0 ∉ word) (rest : List (BitVec 8))
    (table : List (List (BitVec 8) × Command)) (htable : ∀ entry ∈ table, 0 ∉ entry.1) :
    findCommand (word ++ 0 :: rest) table =
      some ((table.find? fun entry => entry.1 == word).map Prod.snd) := by
  induction table with
  | nil => rfl
  | cons entry table ih =>
    obtain ⟨hentry, htable⟩ := List.forall_mem_cons.mp htable
    obtain ⟨order, horder, hzero⟩ := strcmp_eq hword hentry rest
    rw [findCommand, horder, Option.bind_eq_bind, Option.bind_some]
    by_cases hsame : entry.1 = word
    · rw [if_pos (hzero.mpr hsame), List.find?_cons_of_pos (by simpa using hsame)]
      rfl
    · rw [if_neg (hzero.not.mpr hsame), List.find?_cons_of_neg (by simpa using hsame), ih htable]

theorem findCommand_commands (hword : 0 ∉ word) (rest : List (BitVec 8)) :
    findCommand (word ++ 0 :: rest) commands = some (commandNamed word) :=
  findCommand_eq hword rest commands (by decide)

end Names

section Run

variable {line tail : List (BitVec 8)} {walk : Word → Bool}

/-- A handler is called with the words of the line. -/
structure HoldsWords (args : Arguments) (words : List (List (BitVec 8))) (places : List ℕ) :
    Prop where
  argc : args.argc = words.length
  argv : ArgvHolds args.argv places
  placed : Placed args.buf 0 words places

/-- Too many words. -/
theorem runcmd_tooMany (hnul : 0 ∉ line) (hmany : maxArgs ≤ (lineWords line).length) :
    runcmd walk (line ++ 0 :: tail) = some .tooMany := by
  have hsplit := @splitArgs_tooMany tail line [] 0 (Vector.replicate maxArgs none) hnul (by decide)
    (by rwa [Nat.zero_add])
  rw [List.nil_append, List.length_nil] at hsplit
  rw [runcmd, hsplit]

/-- The words of a line, as the handlers find them. -/
theorem runcmd_args (hnul : 0 ∉ line) (hfew : (lineWords line).length < maxArgs) :
    ∃ args places, HoldsWords args (lineWords line) places ∧ args.argvReads = [] ∧
      args.wordReads = [] ∧
      runcmd walk (line ++ 0 :: tail) = some
        (match lineWords line with
        | [] => .nothing
        | name :: _ =>
            match commandNamed name with
            | none => .unknown
            | some command =>
                .invoked command args (command.func walk args).1 (command.func walk args).2) := by
  obtain ⟨buf, argv, places, hsplit, hargv, hplaced, -⟩ := @splitArgs_args tail line []
    (Vector.replicate maxArgs none) [] hnul rfl (by rwa [List.length_nil, Nat.zero_add])
  have hcount : ([] : List ℕ).length + (lineWords line).length = (lineWords line).length :=
    Nat.zero_add _
  rw [hcount] at hsplit
  rw [List.nil_append] at hargv
  have hall : splitArgs (line ++ 0 :: tail) 0 0 (Vector.replicate maxArgs none) =
      some (.args buf (lineWords line).length argv) := hsplit
  refine ⟨⟨(lineWords line).length, argv, buf, [], []⟩, places, ⟨rfl, hargv, hplaced⟩, rfl, rfl, ?_⟩
  rw [runcmd, hall]
  dsimp only
  cases hwords : lineWords line with
  | nil => rfl
  | cons name args =>
    rw [hwords] at hplaced
    cases places with
    | nil => exact hplaced.elim
    | cons p places =>
      obtain ⟨-, ⟨hname, rest, hdrop⟩, -⟩ := hplaced
      have hfirst : (argv[0]?).join = some p := hargv.get (Nat.succ_pos _)
      rw [if_neg (show ¬ (name :: args).length = 0 from Nat.succ_ne_zero _), hfirst,
        Option.bind_eq_bind, Option.bind_some, hdrop, findCommand_commands hname,
        Option.bind_eq_bind, Option.bind_some]
      dsimp only
      cases commandNamed name <;> rfl

end Run

end OsLabs.Jos
