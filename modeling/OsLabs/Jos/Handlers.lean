import OsLabs.Jos.CommandLine

/-!
# What the handlers read

A handler may read the pointers of `argv` below `argc`, and each word up to its
NUL.  `xtoi` reads from the third character of a word on, and `showmappings`,
`showvm` and `setm` look at `argc` only to see whether it is 1.
-/

namespace OsLabs.Jos

/-- Up to its second place, a read through its pointer meets no NUL. -/
def WithinWord (buf : List (BitVec 8)) (read : ℕ × ℕ) : Prop :=
  0 ∉ (buf.drop read.1).take (read.2 - read.1)

/-- What has been read of the arguments that a handler started with is theirs. -/
structure ReadsSafe (start args : Arguments) : Prop where
  argv : ∀ i ∈ args.argvReads, i < start.argc
  words : ∀ read ∈ args.wordReads, WithinWord start.buf read

/-- The number that `xtoi` makes of a word. -/
def wordNumber (word : List (BitVec 8)) : Word := (word.drop 2).foldl hexStep 0

/-! ## One argument -/

section Reads

variable {start args : Arguments} {word : List (BitVec 8)} {p i : ℕ}

theorem withinWord_iff {buf : List (BitVec 8)} (hword : WordAt buf p word) (offset : ℕ) :
    WithinWord buf (p, p + offset) ↔ offset ≤ word.length := by
  obtain ⟨hnul, rest, hdrop⟩ := hword
  rw [WithinWord, hdrop, Nat.add_sub_cancel_left]
  constructor
  · intro hwithin
    by_contra hlong
    rw [List.take_append, List.take_of_length_le (by omega)] at hwithin
    apply hwithin
    obtain ⟨more, hmore⟩ : ∃ more, offset - word.length = more + 1 :=
      ⟨offset - word.length - 1, by omega⟩
    rw [hmore]
    exact List.mem_append_right _ List.mem_cons_self
  · intro hshort hmem
    rw [List.take_append_of_le_length hshort] at hmem
    exact hnul (List.mem_of_mem_take hmem)

theorem pointer_safe_iff :
    ReadsSafe start (args.pointer i).1 ↔ ReadsSafe start args ∧ i < start.argc := by
  constructor
  · intro hsafe
    exact ⟨⟨fun j hj => hsafe.argv j (List.mem_append_left _ hj), hsafe.words⟩,
      hsafe.argv i (List.mem_append_right _ List.mem_cons_self)⟩
  · rintro ⟨hsafe, hi⟩
    refine ⟨fun j hj => ?_, hsafe.words⟩
    exact (List.mem_append.mp hj).elim (hsafe.argv j) fun h => List.mem_singleton.mp h ▸ hi

/-- The first character of a word is its own. -/
theorem firstChar_safe_iff :
    ReadsSafe start (args.firstChar i).1 ↔ ReadsSafe start args ∧ i < start.argc := by
  rw [← pointer_safe_iff, Arguments.firstChar]
  obtain ⟨next, pointer⟩ := args.pointer i
  cases pointer with
  | none => rfl
  | some p =>
    dsimp only
    constructor
    · exact fun hsafe => ⟨hsafe.argv, fun read hread => hsafe.words read (List.mem_append_left _ hread)⟩
    · refine fun hsafe => ⟨hsafe.argv, fun read hread => ?_⟩
      refine (List.mem_append.mp hread).elim (hsafe.words read) fun h => ?_
      rw [List.mem_singleton.mp h, WithinWord, Nat.sub_self, List.take_zero]
      exact List.not_mem_nil

theorem xtoiLoop_of_read {buf : List (BitVec 8)} {place : ℕ} {c : BitVec 8}
    (hread : buf[place]? = some c) (res : Word) :
    xtoiLoop buf place res =
      if c = 0 then ([place], some (res, buf))
      else
        (place :: (xtoiLoop (buf.set place (hexChar c)) (place + 1) (hexStep res c)).1,
          (xtoiLoop (buf.set place (hexChar c)) (place + 1) (hexStep res c)).2) := by
  rw [xtoiLoop]
  split
  · rename_i hnone
    cases hnone.symm.trans hread
  · rename_i hsome
    cases hsome.symm.trans hread
    rfl

/-- The loop reads up to the NUL. -/
theorem xtoiLoop_word {tail : List (BitVec 8)} (hnul : 0 ∉ word) (before : List (BitVec 8))
    (res : Word) :
    xtoiLoop (before ++ (word ++ 0 :: tail)) before.length res =
      (List.range' before.length (word.length + 1),
        some (word.foldl hexStep res, before ++ (word.map hexChar ++ 0 :: tail))) := by
  induction word generalizing before res with
  | nil =>
    rw [List.nil_append, xtoiLoop_of_read (read_behind before tail 0), if_pos rfl]
    rfl
  | cons c word ih =>
    obtain ⟨hc, hrest⟩ := not_or.mp (List.mem_cons.not.mp hnul)
    have hnext := ih hrest (before ++ [hexChar c]) (hexStep res c)
    rw [List.length_append, List.length_singleton, List.append_assoc, List.append_assoc] at hnext
    rw [List.cons_append, xtoiLoop_of_read (read_behind before _ c), if_neg (Ne.symm hc),
      set_behind]
    have hsame : before ++ hexChar c :: (word ++ 0 :: tail) =
        before ++ ([hexChar c] ++ (word ++ 0 :: tail)) := rfl
    rw [hsame, hnext]
    rfl

theorem mem_xtoiLoop (buf : List (BitVec 8)) (place : ℕ) (res : Word) :
    place ∈ (xtoiLoop buf place res).1 := by
  cases hread : buf[place]? with
  | none =>
    rw [xtoiLoop]
    split
    · exact List.mem_cons_self
    · rename_i hsome
      cases hread.symm.trans hsome
  | some c =>
    rw [xtoiLoop_of_read hread]
    split <;> exact List.mem_cons_self

/-- The reads of `xtoi` are of the word at most if the word has two characters. -/
theorem ReadsSafe.of_number (hsafe : ReadsSafe start (args.number i).1) :
    ReadsSafe start (args.pointer i).1 ∧
      ∀ p, (args.argv[i]?).join = some p → WithinWord start.buf (p, p + 2) := by
  rw [Arguments.number] at hsafe
  cases hpointer : (args.argv[i]?).join with
  | none =>
    rw [Arguments.pointer, hpointer] at hsafe
    exact ⟨hsafe, nofun⟩
  | some p =>
    have hfirst : p + 2 ∈ (xtoi args.buf p).1 := mem_xtoiLoop args.buf (p + 2) 0
    obtain ⟨⟨places, result⟩, hxtoi⟩ : ∃ run, xtoi args.buf p = run := ⟨_, rfl⟩
    rw [Arguments.pointer, hpointer] at hsafe
    dsimp only at hsafe
    rw [hxtoi] at hsafe hfirst
    have hreads : ReadsSafe start { args with
        argvReads := args.argvReads ++ [i],
        wordReads := args.wordReads ++ places.map fun place => (p, place) } := by
      cases result with
      | none => exact hsafe
      | some value => exact ⟨hsafe.argv, hsafe.words⟩
    refine ⟨⟨hreads.argv, fun read hread => hreads.words read (List.mem_append_left _ hread)⟩, ?_⟩
    rintro _ ⟨⟩
    exact hreads.words _ (List.mem_append_right _ (List.mem_map_of_mem hfirst))

/-- `xtoi` of a word of two characters or more; the buffer behind the word stays as it is. -/
theorem number_word (hpointer : (args.argv[i]?).join = some p) (hword : WordAt args.buf p word)
    (hlength : 2 ≤ word.length) :
    ∃ buf, args.number i =
        ({ args with
          buf := buf, argvReads := args.argvReads ++ [i],
          wordReads := args.wordReads ++
            (List.range' (p + 2) (word.length - 1)).map fun place => (p, place) },
          some (wordNumber word)) ∧
      ∀ q, p + word.length ≤ q → buf.drop q = args.buf.drop q := by
  obtain ⟨hnul, rest, hdrop⟩ := hword
  obtain ⟨before, hbefore⟩ : ∃ before, args.buf.take p ++ word.take 2 = before := ⟨_, rfl⟩
  have hplace : p ≤ args.buf.length := by
    by_contra hlong
    rw [List.drop_eq_nil_of_le (by omega)] at hdrop
    exact absurd hdrop.symm (List.append_ne_nil_of_right_ne_nil word (List.cons_ne_nil _ _))
  have hstart : before.length = p + 2 := by
    rw [← hbefore, List.length_append, List.length_take, List.length_take]
    omega
  have hwhole : args.buf = before ++ (word.drop 2 ++ 0 :: rest) := by
    calc
      args.buf = args.buf.take p ++ args.buf.drop p := (List.take_append_drop _ _).symm
      _ = args.buf.take p ++ (word.take 2 ++ word.drop 2 ++ 0 :: rest) := by
        rw [hdrop, List.take_append_drop]
      _ = before ++ (word.drop 2 ++ 0 :: rest) := by
        rw [← hbefore, List.append_assoc, List.append_assoc]
  have hxtoi := @xtoiLoop_word (word.drop 2) rest (fun h => hnul (List.mem_of_mem_drop h)) before 0
  have hcount : (word.drop 2).length + 1 = word.length - 1 := by
    rw [List.length_drop]
    omega
  rw [← hwhole, hstart, hcount] at hxtoi
  refine ⟨before ++ ((word.drop 2).map hexChar ++ 0 :: rest), ?_, fun q hq => ?_⟩
  · rw [Arguments.number, Arguments.pointer, hpointer]
    dsimp only
    rw [xtoi, hxtoi]
    rfl
  · have hend (word' : List (BitVec 8)) (hsame : word'.length = (word.drop 2).length) :
        (before ++ (word' ++ 0 :: rest)).drop q = (0 :: rest).drop (q - (p + word.length)) := by
      have hlast : (before ++ word').length = p + word.length := by
        rw [List.length_append, hstart, hsame, List.length_drop]
        omega
      rw [← List.append_assoc, List.drop_append, hlast, List.drop_eq_nil_of_le (hlast.trans_le hq),
        List.nil_append]
    rw [hwhole, hend _ rfl, hend _ (List.length_map _)]

/-- A number is read safely from a word of two characters or more. -/
theorem ReadsSafe.number (hsafe : ReadsSafe start args) (hi : i < start.argc)
    (hpointer : (args.argv[i]?).join = some p) (hword : WordAt start.buf p word)
    (hsame : args.buf.drop p = start.buf.drop p) (hlength : 2 ≤ word.length) :
    ∃ next, args.number i = (next, some (wordNumber word)) ∧ ReadsSafe start next ∧
      next.argv = args.argv ∧ ∀ q, p + word.length ≤ q → next.buf.drop q = args.buf.drop q := by
  have hcurrent : WordAt args.buf p word := ⟨hword.1, hsame ▸ hword.2⟩
  obtain ⟨buf, hnumber, hbehind⟩ := number_word hpointer hcurrent hlength
  refine ⟨_, hnumber, ⟨fun j hj => ?_, fun read hread => ?_⟩, rfl, hbehind⟩
  · exact (List.mem_append.mp hj).elim (hsafe.argv j) fun h => List.mem_singleton.mp h ▸ hi
  · refine (List.mem_append.mp hread).elim (hsafe.words read) fun h => ?_
    obtain ⟨place, hplace, rfl⟩ := List.mem_map.mp h
    rw [List.mem_range'_1] at hplace
    rw [show place = p + (place - p) by omega, withinWord_iff hword]
    omega

end Reads

/-! ## Handlers -/

/-- No words, or words of which the first two have two characters or more. -/
def TwoNumbers : List (List (BitVec 8)) → Prop
  | [] => True
  | [_] => False
  | a :: b :: _ => 2 ≤ a.length ∧ 2 ≤ b.length

/-- The words behind the name of the command are those that its handler relies on. -/
def Command.ArgsFit (walk : Word → Bool) : Command → List (List (BitVec 8)) → Prop
  | .showmappings, rest => TwoNumbers rest
  | .showvm, rest => TwoNumbers rest
  | .setm, a :: rest => 2 ≤ a.length ∧ (walk (wordNumber a) → 2 ≤ rest.length)
  | _, _ => True

section Handlers

variable {start : Arguments} {name : List (BitVec 8)} {rest : List (List (BitVec 8))}
variable {places : List ℕ}

theorem ReadsSafe.of_nothing (hargv : start.argvReads = []) (hwords : start.wordReads = []) :
    ReadsSafe start start where
  argv i hi := by
    rw [hargv] at hi
    cases hi
  words read hread := by
    rw [hwords] at hread
    cases hread

theorem twoNumbers_fst (message : String) (act : Word → Word → Action) (hargc : start.argc ≠ 1) :
    (twoNumbers message act start).1 =
      match start.number 1 with
      | (args, none) => args
      | (args, some _) => (args.number 2).1 := by
  rw [twoNumbers, if_neg hargc]
  obtain ⟨args, first⟩ := start.number 1
  cases first with
  | none => rfl
  | some first =>
    dsimp only
    obtain ⟨args', second⟩ := args.number 2
    cases second <;> rfl

/-- A handler that goes on after a number has read the number safely. -/
theorem ReadsSafe.of_later {args : Arguments} {i : ℕ} {later : Arguments → Word → Arguments}
    (hlater : ∀ next value, ReadsSafe start (later next value) → ReadsSafe start next)
    (hsafe : ReadsSafe start
      (match args.number i with
      | (args, none) => args
      | (args, some value) => later args value)) :
    ReadsSafe start (args.number i).1 := by
  obtain ⟨⟨next, result⟩, hnumber⟩ : ∃ run, args.number i = run := ⟨_, rfl⟩
  rw [hnumber] at hsafe ⊢
  cases result with
  | none => exact hsafe
  | some value => exact hlater next value hsafe

/-- The number that a safe handler reads is a word of two characters or more. -/
theorem ReadsSafe.length_of_number {args : Arguments} {i p : ℕ} {word : List (BitVec 8)}
    (hsafe : ReadsSafe start (args.number i).1) (hpointer : (args.argv[i]?).join = some p)
    (hword : WordAt start.buf p word) : 2 ≤ word.length :=
  (withinWord_iff hword 2).mp (hsafe.of_number.2 p hpointer)

theorem exists_place {buf : List (BitVec 8)} {lower : ℕ} {word : List (BitVec 8)}
    (hplaced : Placed buf lower (word :: rest) places) :
    ∃ p tail, places = p :: tail ∧ lower ≤ p ∧ WordAt buf p word ∧
      Placed buf (p + word.length) rest tail := by
  cases places with
  | nil => exact hplaced.elim
  | cons p tail => exact ⟨p, tail, rfl, hplaced⟩

/-- `showmappings` and `showvm` read safely just when they have no argument, or two numbers. -/
theorem twoNumbers_safe_iff (hholds : HoldsWords start (name :: rest) places)
    (hargv : start.argvReads = []) (hwords : start.wordReads = []) (message : String)
    (act : Word → Word → Action) :
    ReadsSafe start (twoNumbers message act start).1 ↔ TwoNumbers rest := by
  have hstart := ReadsSafe.of_nothing hargv hwords
  have hargc := hholds.argc
  obtain ⟨p, places, rfl, -, -, hplaced⟩ := exists_place hholds.placed
  cases rest with
  | nil =>
    rw [twoNumbers, if_pos (show start.argc = 1 from hargc)]
    exact iff_of_true hstart trivial
  | cons a rest =>
    obtain ⟨p₁, places, rfl, -, ha, hplaced⟩ := exists_place hplaced
    have hfirst : (start.argv[1]?).join = some p₁ := hholds.argv.get (i := 1) (by simp)
    rw [List.length_cons, List.length_cons] at hargc
    rw [twoNumbers_fst message act (by omega)]
    by_cases hlength : 2 ≤ a.length
    · obtain ⟨args, hnumber, hsafe, hsame, hbehind⟩ :=
        hstart.number (by omega) hfirst ha rfl hlength
      rw [hnumber]
      dsimp only
      cases rest with
      | nil =>
        refine iff_of_false (fun hall => ?_) id
        have hlt := (pointer_safe_iff.mp hall.of_number.1).2
        rw [List.length_nil] at hargc
        omega
      | cons b rest =>
        obtain ⟨p₂, places, rfl, hle, hb, -⟩ := exists_place hplaced
        have hsecond : (args.argv[2]?).join = some p₂ := by
          rw [hsame]
          exact hholds.argv.get (i := 2) (by simp)
        constructor
        · intro hall
          exact ⟨hlength, hall.length_of_number hsecond hb⟩
        · rintro ⟨-, hlength₂⟩
          obtain ⟨last, hlast, hall, -, -⟩ := hsafe.number (i := 2) (by
            rw [List.length_cons] at hargc
            omega) hsecond hb (hbehind p₂ hle) hlength₂
          rw [hlast]
          exact hall
    · have hnumber : ∀ next (_ : Word), ReadsSafe start (next.number 2).1 → ReadsSafe start next :=
        fun _ _ hall => (pointer_safe_iff.mp hall.of_number.1).1
      refine iff_of_false (fun hall => ?_) ?_
      · exact hlength ((ReadsSafe.of_later hnumber hall).length_of_number hfirst ha)
      cases rest with
      | nil => exact id
      | cons b rest => exact fun htwo => hlength htwo.1

theorem setm_fst (walk : Word → Bool) (hargc : start.argc ≠ 1) :
    (setm walk start).1 =
      match start.number 1 with
      | (args, none) => args
      | (args, some addr) =>
          if walk addr then
            match args.firstChar 3 with
            | (args, none) => args
            | (args, some _) => (args.firstChar 2).1
          else args := by
  rw [setm, if_neg hargc]
  obtain ⟨args, addr⟩ := start.number 1
  cases addr with
  | none => rfl
  | some addr =>
    dsimp only
    by_cases hwalk : walk addr
    · rw [if_neg (not_not_intro hwalk), if_pos hwalk]
      obtain ⟨args', perm⟩ := args.firstChar 3
      cases perm with
      | none => rfl
      | some perm =>
        dsimp only
        obtain ⟨args'', mode⟩ := args'.firstChar 2
        cases mode <;> rfl
    · rw [if_pos hwalk, if_neg hwalk]

/-- The two characters that `setm` reads behind the address. -/
theorem firstChars_safe_iff {args : Arguments} (hsafe : ReadsSafe start args) :
    ReadsSafe start
        (match args.firstChar 3 with
        | (args, none) => args
        | (args, some _) => (args.firstChar 2).1) ↔ 3 < start.argc := by
  have hthird := @firstChar_safe_iff start args 3
  obtain ⟨⟨next, perm⟩, hnext⟩ : ∃ run, args.firstChar 3 = run := ⟨_, rfl⟩
  rw [hnext] at hthird ⊢
  rw [and_iff_right hsafe] at hthird
  cases perm with
  | none => exact hthird
  | some perm =>
    dsimp only at hthird ⊢
    rw [firstChar_safe_iff, hthird]
    omega

/-- `setm` goes on after the address. -/
theorem ReadsSafe.of_firstChars {walk : Word → Bool} {args : Arguments} {addr : Word}
    (hsafe : ReadsSafe start
      (if walk addr then
        match args.firstChar 3 with
        | (args, none) => args
        | (args, some _) => (args.firstChar 2).1
      else args)) : ReadsSafe start args := by
  by_cases hwalk : walk addr
  · rw [if_pos hwalk] at hsafe
    have hthird := @firstChar_safe_iff start args 3
    obtain ⟨⟨next, perm⟩, hnext⟩ : ∃ run, args.firstChar 3 = run := ⟨_, rfl⟩
    rw [hnext] at hthird hsafe
    cases perm with
    | none => exact (hthird.mp hsafe).1
    | some perm => exact (hthird.mp (firstChar_safe_iff.mp hsafe).1).1
  · rwa [if_neg hwalk] at hsafe

/-- `setm` reads safely just when it has no argument, or a number and, where there is an entry for
it, two more. -/
theorem setm_safe_iff (walk : Word → Bool) (hholds : HoldsWords start (name :: rest) places)
    (hargv : start.argvReads = []) (hwords : start.wordReads = []) :
    ReadsSafe start (setm walk start).1 ↔ Command.setm.ArgsFit walk rest := by
  have hstart := ReadsSafe.of_nothing hargv hwords
  have hargc := hholds.argc
  obtain ⟨p, places, rfl, -, -, hplaced⟩ := exists_place hholds.placed
  cases rest with
  | nil =>
    rw [setm, if_pos (show start.argc = 1 from hargc)]
    exact iff_of_true hstart trivial
  | cons a rest =>
    obtain ⟨p₁, places, rfl, -, ha, hplaced⟩ := exists_place hplaced
    have hfirst : (start.argv[1]?).join = some p₁ := hholds.argv.get (i := 1) (by simp)
    rw [List.length_cons, List.length_cons] at hargc
    rw [setm_fst walk (by omega), Command.ArgsFit]
    by_cases hlength : 2 ≤ a.length
    · obtain ⟨args, hnumber, hsafe, -, -⟩ := hstart.number (by omega) hfirst ha rfl hlength
      rw [hnumber, and_iff_right hlength]
      dsimp only
      by_cases hwalk : walk (wordNumber a)
      · rw [if_pos hwalk, firstChars_safe_iff hsafe, imp_iff_right hwalk]
        omega
      · rw [if_neg hwalk]
        exact iff_of_true hsafe fun h => absurd h hwalk
    · refine iff_of_false (fun hall => ?_) fun hfit => hlength hfit.1
      have hnumber := ReadsSafe.of_later (fun _ _ => ReadsSafe.of_firstChars) hall
      exact hlength (hnumber.length_of_number hfirst ha)

/-- Each handler. -/
theorem func_safe_iff (walk : Word → Bool) (command : Command)
    (hholds : HoldsWords start (name :: rest) places) (hargv : start.argvReads = [])
    (hwords : start.wordReads = []) :
    ReadsSafe start (command.func walk start).1 ↔ command.ArgsFit walk rest := by
  cases command with
  | showmappings => exact twoNumbers_safe_iff hholds hargv hwords _ _
  | showvm => exact twoNumbers_safe_iff hholds hargv hwords _ _
  | setm => exact setm_safe_iff walk hholds hargv hwords
  | _ => exact iff_of_true (ReadsSafe.of_nothing hargv hwords) (by cases rest <;> trivial)

end Handlers

/-! ## Command lines -/

/-- `runcmd` leaves neither the buffer nor `argv`; it calls a handler, if it does, with the words of
the line, and the handler reads no pointer from `argc` on and no byte behind the NUL of a word. -/
def CommandHandled (walk : Word → Bool) (line tail : List (BitVec 8)) : Prop :=
  ∃ outcome, runcmd walk (line ++ 0 :: tail) = some outcome ∧
    match outcome with
    | .tooMany => maxArgs ≤ (lineWords line).length
    | .nothing => lineWords line = []
    | .unknown => ∃ name rest, lineWords line = name :: rest ∧ commandNamed name = none
    | .invoked command start final _ =>
        start.argc < maxArgs ∧ (∃ places, HoldsWords start (lineWords line) places) ∧
          (∃ name rest, lineWords line = name :: rest ∧ commandNamed name = some command) ∧
          ReadsSafe start final

section Lines

variable {walk : Word → Bool} {line tail name : List (BitVec 8)} {rest : List (List (BitVec 8))}
variable {command : Command}

/-- A line with the name of a command. -/
theorem commandHandled_named (hnul : 0 ∉ line) (hwords : lineWords line = name :: rest)
    (hfew : (lineWords line).length < maxArgs) (hnamed : commandNamed name = some command) :
    CommandHandled walk line tail ↔ command.ArgsFit walk rest := by
  obtain ⟨args, places, hholds, hargv, hreads, hrun⟩ := runcmd_args hnul hfew
  have hholds' := hholds
  rw [hwords] at hrun hholds'
  dsimp only at hrun
  rw [hnamed] at hrun
  rw [← func_safe_iff walk command hholds' hargv hreads]
  constructor
  · rintro ⟨outcome, houtcome, hsafe⟩
    cases hrun.symm.trans houtcome
    exact hsafe.2.2.2
  · intro hsafe
    refine ⟨_, hrun, ?_, ⟨places, hholds⟩, ⟨name, rest, hwords, hnamed⟩, hsafe⟩
    exact hholds.argc.trans_lt hfew

/-- A command line is handled safely if and only if its command, if there is one, finds the words
that it relies on. -/
theorem runcmd_handled_iff (hnul : 0 ∉ line) :
    CommandHandled walk line tail ↔
      ∀ name rest command, lineWords line = name :: rest → (lineWords line).length < maxArgs →
        commandNamed name = some command → command.ArgsFit walk rest := by
  by_cases hfew : (lineWords line).length < maxArgs
  · cases hwords : lineWords line with
    | nil =>
      refine iff_of_true ?_ fun _ _ _ h => nomatch h
      obtain ⟨args, places, -, -, -, hrun⟩ := @runcmd_args line tail walk hnul hfew
      rw [hwords] at hrun
      exact ⟨_, hrun, hwords⟩
    | cons name rest =>
      cases hnamed : commandNamed name with
      | none =>
        obtain ⟨args, places, -, -, -, hrun⟩ := @runcmd_args line tail walk hnul hfew
        rw [hwords] at hrun
        dsimp only at hrun
        rw [hnamed] at hrun
        refine iff_of_true ⟨_, hrun, name, rest, hwords, hnamed⟩ ?_
        rintro _ _ command ⟨⟩ - hsome
        cases hnamed.symm.trans hsome
      | some command =>
        rw [commandHandled_named hnul hwords hfew hnamed]
        constructor
        · rintro hfit _ _ _ ⟨⟩ - hsome
          cases hnamed.symm.trans hsome
          exact hfit
        · exact fun hall => hall name rest command rfl (hwords ▸ hfew) hnamed
  · refine iff_of_true ⟨_, runcmd_tooMany hnul (not_lt.mp hfew), not_lt.mp hfew⟩ ?_
    exact fun _ _ _ _ h => absurd h hfew

end Lines

/-- `showvm` with one number takes `argv[2]`, which is a null pointer. -/
theorem one_number_unsafe : ¬ ∀ (walk : Word → Bool) (line tail : List (BitVec 8)), 0 ∉ line →
    CommandHandled walk line tail := by
  intro hall
  have hnul : 0 ∉ text "showvm 0x0" := by decide
  have hwords : lineWords (text "showvm 0x0") = [text "showvm", text "0x0"] := by decide
  have hhandled := hall (fun _ => true) _ [] hnul
  have hnamed : commandNamed (text "showvm") = some .showvm := by decide
  exact (commandHandled_named hnul hwords (by decide) hnamed).mp hhandled

/-- `sw` with two numbers. -/
theorem runcmd_handled_two : CommandHandled (fun _ => true) (text "  sw 0x1000 0x2000 ") [] := by
  have hwords : lineWords (text "  sw 0x1000 0x2000 ") =
      [text "sw", text "0x1000", text "0x2000"] := by decide
  have hnamed : commandNamed (text "sw") = some .showmappings := by decide
  refine (runcmd_handled_iff (by decide)).mpr fun name rest command hline _ hcommand => ?_
  obtain ⟨rfl, rfl⟩ := List.cons.inj (hwords.symm.trans hline)
  cases hnamed.symm.trans hcommand
  exact ⟨by decide, by decide⟩

end OsLabs.Jos
