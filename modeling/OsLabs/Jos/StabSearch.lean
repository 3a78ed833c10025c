import OsLabs.Jos.Stabs

/-!
# The binary search for stabs

`stab_binsearch` halves a region of a table in which the entries of one type
are sorted and lie between others.  After an exact match it goes on with the
next address.  The theorems say what one iteration does, what a run does that
meets no exact match, what a run does up to one, and when the result is right.
-/

namespace OsLabs.Jos

/-! ## Entries of a region -/

/-- Index `i` is an entry of the type in the region. -/
def EntryIn (stab : ℤ → Stab) (type : BitVec 8) (l r i : ℤ) : Prop :=
  l ≤ i ∧ i ≤ r ∧ (stab i).nType = type

instance (stab : ℤ → Stab) (type : BitVec 8) (l r i : ℤ) : Decidable (EntryIn stab type l r i) :=
  inferInstanceAs (Decidable (_ ∧ _ ∧ _))

/-- The table read is `stab`, as far as the region goes. -/
structure Reads (stabs : Stabs) (stab : ℤ → Stab) (first last : ℤ) : Prop where
  type : ∀ i, first ≤ i → i ≤ last → stabs.nType i = some (stab i).nType
  value : ∀ i, first ≤ i → i ≤ last → stabs.nValue i = some (stab i).nValue

/-- The entries of the type have increasing values. -/
def Increasing (stab : ℤ → Stab) (type : BitVec 8) (first last : ℤ) : Prop :=
  ∀ i j, EntryIn stab type first last i → EntryIn stab type first last j → i < j →
    (stab i).nValue < (stab j).nValue

/-- The last entry of the region below `addr`. -/
def LastBelow (stab : ℤ → Stab) (type : BitVec 8) (l r : ℤ) (addr : Word) (i : ℤ) : Prop :=
  EntryIn stab type l r i ∧ (stab i).nValue < addr ∧
    ∀ j, EntryIn stab type l r j → (stab j).nValue < addr → j ≤ i

/-- The first entry of the region above `addr`. -/
def FirstAbove (stab : ℤ → Stab) (type : BitVec 8) (l r : ℤ) (addr : Word) (i : ℤ) : Prop :=
  EntryIn stab type l r i ∧ addr < (stab i).nValue ∧
    ∀ j, EntryIn stab type l r j → addr < (stab j).nValue → i ≤ j

section Search

variable {stabs : Stabs} {stab : ℤ → Stab} {type : BitVec 8} {first last : ℤ}

theorem Reads.of_within (stab : ℤ → Stab) (first last : ℤ) :
    Reads (Stabs.within stab first last) stab first last where
  type := fun _ hfirst hlast => if_pos ⟨hfirst, hlast⟩
  value := fun _ hfirst hlast => if_pos ⟨hfirst, hlast⟩

theorem Increasing.le (hsorted : Increasing stab type first last) {i j : ℤ}
    (hi : EntryIn stab type first last i) (hj : EntryIn stab type first last j) (hle : i ≤ j) :
    (stab i).nValue ≤ (stab j).nValue := by
  rcases hle.eq_or_lt with rfl | hlt
  · exact BitVec.le_refl _
  · exact BitVec.le_of_lt (hsorted i j hi hj hlt)

/-! ## One iteration -/

theorem middle_mem {l r : ℤ} (hle : l ≤ r) : l ≤ middle l r ∧ middle l r ≤ r := by
  have hquot : middle l r = (l + r) / 2 ∨ middle l r = (l + r) / 2 + 1 ∧ (l + r) % 2 = 1 := by
    rw [middle, Int.tdiv_eq_ediv]
    split
    · exact Or.inl (by omega)
    · exact Or.inr ⟨by simp, by omega⟩
  omega

/-- What the backward scan finds. -/
theorem backTo_spec (hreads : Reads stabs stab first last) {l : ℤ} (hl : first ≤ l) {count : ℕ}
    (hlast : l + count - 1 ≤ last) :
    (backTo stabs type l count = some (l - 1) ∧
        ∀ i, ¬ EntryIn stab type l (l + count - 1) i) ∨
      ∃ m, backTo stabs type l count = some m ∧ EntryIn stab type l (l + count - 1) m ∧
        ∀ i, EntryIn stab type l (l + count - 1) i → i ≤ m := by
  induction count with
  | zero => exact Or.inl ⟨rfl, fun i hi => by obtain ⟨hlow, hhigh, -⟩ := hi; omega⟩
  | succ k ih =>
    rw [Nat.cast_succ] at hlast ⊢
    have hread := hreads.type (l + k) (by omega) (by omega)
    by_cases htype : (stab (l + k)).nType = type
    · refine Or.inr ⟨l + k, ?_, ⟨by omega, by omega, htype⟩, fun i hi => ?_⟩
      · rw [backTo, hread, Option.bind_eq_bind, Option.bind_some, if_pos htype]
        rfl
      · have hhigh := hi.2.1
        omega
    · have hstep : backTo stabs type l (k + 1) = backTo stabs type l k := by
        rw [backTo, hread, Option.bind_eq_bind, Option.bind_some, if_neg htype]
      have hshrink : ∀ i, EntryIn stab type l (l + (k + 1) - 1) i →
          EntryIn stab type l (l + k - 1) i := fun i ⟨hlow, hhigh, hi⟩ => by
        have hne : i ≠ l + k := fun hsame => htype (hsame ▸ hi)
        exact ⟨hlow, by omega, hi⟩
      rw [hstep]
      rcases ih (by omega) with ⟨hnone, hempty⟩ | ⟨m, hfound, hm, hmax⟩
      · exact Or.inl ⟨hnone, fun i hi => hempty i (hshrink i hi)⟩
      · exact Or.inr ⟨m, hfound, ⟨hm.1, by have hhigh := hm.2.1; omega, hm.2.2⟩,
          fun i hi => hmax i (hshrink i hi)⟩

/-- The entry that an iteration compares: the last one up to the middle. -/
def Compared (stab : ℤ → Stab) (type : BitVec 8) (l r m : ℤ) : Prop :=
  EntryIn stab type l (middle l r) m ∧ ∀ i, EntryIn stab type l (middle l r) i → i ≤ m

variable (type) in
/-- One iteration of the binary search. -/
theorem probe_spec (hreads : Reads stabs stab first last) {s : Search} (hl : first ≤ s.l)
    (hr : s.r ≤ last) (hle : s.l ≤ s.r) :
    (probe stabs type s = some { s with l := middle s.l s.r + 1 } ∧
        ∀ i, ¬ EntryIn stab type s.l (middle s.l s.r) i) ∨
      ∃ m, Compared stab type s.l s.r m ∧
        ((stab m).nValue < s.addr ∧ probe stabs type s =
            some { s with anyMatches := true, left := m, l := middle s.l s.r + 1 } ∨
          s.addr < (stab m).nValue ∧ probe stabs type s =
            some { s with anyMatches := true, right := m - 1, r := m - 1 } ∨
          (stab m).nValue = s.addr ∧ probe stabs type s =
            some { s with anyMatches := true, left := m, l := m, addr := s.addr + 1 }) := by
  have hmiddle := middle_mem hle
  have hcount : s.l + (middle s.l s.r - s.l + 1).toNat - 1 = middle s.l s.r := by omega
  have hback : _ ∨ ∃ m, backTo stabs type s.l (middle s.l s.r - s.l + 1).toNat = some m ∧ _ :=
    backTo_spec hreads hl (by omega)
  rw [hcount] at hback
  rcases hback with ⟨hnone, hempty⟩ | ⟨m, hfound, hm, hmax⟩
  · left
    refine ⟨?_, hempty⟩
    rw [probe]
    rw [hnone, Option.bind_eq_bind, Option.bind_some, if_pos (by omega)]
    rfl
  · have hlow := hm.1
    have hhigh := hm.2.1
    have hvalue := hreads.value m (by omega) (by omega)
    have hstart : probe stabs type s =
        if (stab m).nValue < s.addr then
          some { s with anyMatches := true, left := m, l := middle s.l s.r + 1 }
        else if s.addr < (stab m).nValue then
          some { s with anyMatches := true, right := m - 1, r := m - 1 }
        else some { s with anyMatches := true, left := m, l := m, addr := s.addr + 1 } := by
      rw [probe]
      rw [hfound, Option.bind_eq_bind, Option.bind_some, if_neg (by omega), hvalue]
      rfl
    refine Or.inr ⟨m, ⟨hm, hmax⟩, ?_⟩
    rw [hstart]
    by_cases hbelow : (stab m).nValue < s.addr
    · exact Or.inl ⟨hbelow, if_pos hbelow⟩
    · by_cases habove : s.addr < (stab m).nValue
      · exact Or.inr (Or.inl ⟨habove, by rw [if_neg hbelow, if_pos habove]⟩)
      · refine Or.inr (Or.inr ⟨?_, by rw [if_neg hbelow, if_neg habove]⟩)
        exact BitVec.le_antisymm (BitVec.not_lt.mp habove) (BitVec.not_lt.mp hbelow)

/-! ## Runs of the search -/

/-- The loop goes from `s` to `s'`, where it ends. -/
inductive Searches (stabs : Stabs) (type : BitVec 8) : Search → Search → Prop
  | done {s : Search} : s.r < s.l → Searches stabs type s s
  | step {s t s' : Search} : s.l ≤ s.r → probe stabs type s = some t →
      Searches stabs type t s' → Searches stabs type s s'

/-- A bound on the number of iterations: the comparison after an exact match need not shorten the
region. -/
def Search.fuel (stab : ℤ → Stab) (type : BitVec 8) (s : Search) : ℕ :=
  2 * (s.r - s.l + 1).toNat +
    if (stab s.l).nType = type ∧ (stab s.l).nValue = s.addr then 1 else 0

variable (type) in
/-- What one iteration keeps, whatever the table holds. -/
theorem probe_bounds (hreads : Reads stabs stab first last) {s : Search} (hl : first ≤ s.l)
    (hr : s.r ≤ last) (hle : s.l ≤ s.r) :
    ∃ t, probe stabs type s = some t ∧ s.l ≤ t.l ∧ t.r ≤ s.r ∧ t.fuel stab type < s.fuel stab type := by
  have hmiddle := middle_mem hle
  have hflag : ∀ t : Search, t.fuel stab type ≤ 2 * (t.r - t.l + 1).toNat + 1 := fun t => by
    rw [Search.fuel]
    split <;> omega
  have hfuel : 2 * (s.r - s.l + 1).toNat ≤ s.fuel stab type := Nat.le_add_right _ _
  rcases probe_spec type hreads hl hr hle with ⟨hstep, -⟩ | ⟨m, ⟨⟨hlow, hhigh, htype⟩, -⟩, hcases⟩
  · refine ⟨_, hstep, ?_, le_rfl, (hflag _).trans_lt ?_⟩
    · dsimp only
      omega
    · dsimp only
      omega
  · rcases hcases with ⟨-, hstep⟩ | ⟨-, hstep⟩ | ⟨hvalue, hstep⟩
    · refine ⟨_, hstep, ?_, le_rfl, (hflag _).trans_lt ?_⟩
      · dsimp only
        omega
      · dsimp only
        omega
    · refine ⟨_, hstep, le_rfl, ?_, (hflag _).trans_lt ?_⟩
      · dsimp only
        omega
      · dsimp only
        omega
    · refine ⟨_, hstep, hlow, le_rfl, ?_⟩
      have hnext : (stab m).nValue ≠ s.addr + 1 := by
        rw [hvalue]
        bv_omega
      have hexact : Search.fuel stab type ⟨m, s.r, m, s.right, true, s.addr + 1⟩ =
          2 * (s.r - m + 1).toNat := by
        rw [Search.fuel, if_neg fun h => hnext h.2, Nat.add_zero]
      rw [hexact]
      rcases hlow.eq_or_lt with hsame | hlater
      · rw [Search.fuel, if_pos ⟨by rw [hsame, htype], by rw [hsame, hvalue]⟩, hsame]
        omega
      · omega

variable (type) in
/-- The search ends, whatever the table holds. -/
theorem searchLoop_ends (hreads : Reads stabs stab first last) {fuel : ℕ} {s : Search}
    (hl : first ≤ s.l) (hr : s.r ≤ last) (hfuel : s.fuel stab type ≤ fuel) :
    ∃ s', searchLoop stabs type fuel s = some s' ∧ Searches stabs type s s' := by
  induction fuel generalizing s with
  | zero =>
    have hempty : s.r < s.l := by
      have hsize : 2 * (s.r - s.l + 1).toNat ≤ s.fuel stab type := Nat.le_add_right _ _
      omega
    exact ⟨s, by rw [searchLoop, if_neg (by omega)], Searches.done hempty⟩
  | succ fuel ih =>
    by_cases hle : s.l ≤ s.r
    · obtain ⟨t, hstep, htl, htr, hless⟩ := probe_bounds type hreads hl hr hle
      obtain ⟨s', hloop, hrun⟩ := ih (hl.trans htl) (htr.trans hr) (by omega)
      exact ⟨s', by rw [searchLoop, if_pos hle, hstep, Option.bind_some, hloop],
        Searches.step hle hstep hrun⟩
    · exact ⟨s, by rw [searchLoop, if_neg hle], Searches.done (by omega)⟩

/-! ## A search without an exact match -/

/-- What a search leaves that meets no entry at `s.addr`: the last entry below it and the first
entry above it. -/
structure Settles (stab : ℤ → Stab) (type : BitVec 8) (s s' : Search) : Prop where
  anyMatches : s'.anyMatches = true ↔ s.anyMatches = true ∨ ∃ i, EntryIn stab type s.l s.r i
  left : LastBelow stab type s.l s.r s.addr s'.left ∨
    s'.left = s.left ∧ ∀ i, EntryIn stab type s.l s.r i → s.addr < (stab i).nValue
  right : FirstAbove stab type s.l s.r s.addr (s'.right + 1) ∨
    s'.right = s.right ∧ ∀ i, EntryIn stab type s.l s.r i → (stab i).nValue < s.addr


/-- A region without entries up to the middle. -/
theorem Settles.skip {s s' : Search} (hempty : ∀ i, ¬ EntryIn stab type s.l (middle s.l s.r) i)
    (hle : s.l ≤ s.r) (h : Settles stab type { s with l := middle s.l s.r + 1 } s') :
    Settles stab type s s' := by
  have hmiddle := middle_mem hle
  have hsame : ∀ i, EntryIn stab type s.l s.r i ↔
      EntryIn stab type (middle s.l s.r + 1) s.r i := fun i => by
    constructor
    · rintro ⟨hlow, hhigh, hi⟩
      exact ⟨Int.not_lt.mp fun hlt => hempty i ⟨hlow, by omega, hi⟩, hhigh, hi⟩
    · rintro ⟨hlow, hhigh, hi⟩
      exact ⟨by omega, hhigh, hi⟩
  obtain ⟨hany, hleft, hright⟩ := h
  constructor
  · simpa only [hsame] using hany
  · simpa only [LastBelow, hsame] using hleft
  · simpa only [FirstAbove, hsame] using hright

/-- The entry compared is below the address. -/
theorem Settles.upper {s s' : Search} {m : ℤ} (hsorted : Increasing stab type s.l s.r)
    (hle : s.l ≤ s.r) (hm : Compared stab type s.l s.r m) (hbelow : (stab m).nValue < s.addr)
    (h : Settles stab type
      { s with anyMatches := true, left := m, l := middle s.l s.r + 1 } s') :
    Settles stab type s s' := by
  have hmiddle := middle_mem hle
  obtain ⟨⟨hlow, hhigh, htype⟩, hmax⟩ := hm
  have hentry : EntryIn stab type s.l s.r m := ⟨hlow, by omega, htype⟩
  have hwiden : ∀ i, EntryIn stab type (middle s.l s.r + 1) s.r i →
      EntryIn stab type s.l s.r i := fun i ⟨hi, hr, ht⟩ => ⟨by omega, hr, ht⟩
  have hsplit : ∀ i, EntryIn stab type s.l s.r i → i ≤ m ∧ (stab i).nValue < s.addr ∨
      EntryIn stab type (middle s.l s.r + 1) s.r i := fun i hi => by
    by_cases hupto : i ≤ middle s.l s.r
    · have him := hmax i ⟨hi.1, hupto, hi.2.2⟩
      have hvalue := hsorted.le hi hentry him
      exact Or.inl ⟨him, by bv_omega⟩
    · exact Or.inr ⟨by omega, hi.2.1, hi.2.2⟩
  constructor
  case anyMatches => exact h.anyMatches.trans ⟨fun _ => Or.inr ⟨m, hentry⟩, fun _ => Or.inl rfl⟩
  case left =>
    rcases h.left with ⟨hi, hlt, hlast⟩ | ⟨hsame, hall⟩
    · refine Or.inl ⟨hwiden _ hi, hlt, fun j hj hjlt => ?_⟩
      rcases hsplit j hj with ⟨hjm, -⟩ | hj
      · have hfrom := hi.1
        dsimp only at hfrom
        omega
      · exact hlast j hj hjlt
    · refine Or.inl (hsame ▸ ⟨hentry, hbelow, fun j hj hjlt => ?_⟩)
      rcases hsplit j hj with ⟨hjm, -⟩ | hj
      · exact hjm
      · exact absurd hjlt (BitVec.lt_asymm (hall j hj))
  case right =>
    rcases h.right with ⟨hi, hlt, hfirst⟩ | ⟨hsame, hall⟩
    · refine Or.inl ⟨hwiden _ hi, hlt, fun j hj hjlt => ?_⟩
      rcases hsplit j hj with ⟨-, hjbelow⟩ | hj
      · exact absurd hjlt (BitVec.lt_asymm hjbelow)
      · exact hfirst j hj hjlt
    · exact Or.inr ⟨hsame, fun j hj => (hsplit j hj).elim And.right (hall j)⟩

/-- The entry compared is above the address. -/
theorem Settles.lower {s s' : Search} {m : ℤ} (hsorted : Increasing stab type s.l s.r)
    (hle : s.l ≤ s.r) (hm : Compared stab type s.l s.r m) (habove : s.addr < (stab m).nValue)
    (h : Settles stab type { s with anyMatches := true, right := m - 1, r := m - 1 } s') :
    Settles stab type s s' := by
  have hmiddle := middle_mem hle
  obtain ⟨⟨hlow, hhigh, htype⟩, -⟩ := hm
  have hentry : EntryIn stab type s.l s.r m := ⟨hlow, by omega, htype⟩
  have hwiden : ∀ i, EntryIn stab type s.l (m - 1) i → EntryIn stab type s.l s.r i :=
    fun i ⟨hi, hr, ht⟩ => ⟨hi, by omega, ht⟩
  have hsplit : ∀ i, EntryIn stab type s.l s.r i → m ≤ i ∧ s.addr < (stab i).nValue ∨
      EntryIn stab type s.l (m - 1) i := fun i hi => by
    by_cases hfrom : m ≤ i
    · have hvalue := hsorted.le hentry hi hfrom
      exact Or.inl ⟨hfrom, by bv_omega⟩
    · exact Or.inr ⟨hi.1, by omega, hi.2.2⟩
  constructor
  case anyMatches => exact h.anyMatches.trans ⟨fun _ => Or.inr ⟨m, hentry⟩, fun _ => Or.inl rfl⟩
  case left =>
    rcases h.left with ⟨hi, hlt, hlast⟩ | ⟨hsame, hall⟩
    · refine Or.inl ⟨hwiden _ hi, hlt, fun j hj hjlt => ?_⟩
      rcases hsplit j hj with ⟨-, hjabove⟩ | hj
      · exact absurd hjlt (BitVec.lt_asymm hjabove)
      · exact hlast j hj hjlt
    · exact Or.inr ⟨hsame, fun j hj => (hsplit j hj).elim And.right (hall j)⟩
  case right =>
    rcases h.right with ⟨hi, hlt, hfirst⟩ | ⟨hsame, hall⟩
    · refine Or.inl ⟨hwiden _ hi, hlt, fun j hj hjlt => ?_⟩
      rcases hsplit j hj with ⟨hjm, -⟩ | hj
      · have hupto := hi.2.1
        dsimp only at hupto
        omega
      · exact hfirst j hj hjlt
    · have hnext : s'.right + 1 = m := by
        rw [hsame]
        exact Int.sub_add_cancel m 1
      refine Or.inl (hnext ▸ ⟨hentry, habove, fun j hj hjlt => ?_⟩)
      rcases hsplit j hj with ⟨hmj, -⟩ | hj
      · exact hmj
      · exact absurd hjlt (BitVec.lt_asymm (hall j hj))

theorem Increasing.within (hsorted : Increasing stab type first last) {l r : ℤ} (hl : first ≤ l)
    (hr : r ≤ last) : Increasing stab type l r :=
  fun i j ⟨hi, hir, hit⟩ ⟨hj, hjr, hjt⟩ =>
    hsorted i j ⟨hl.trans hi, hir.trans hr, hit⟩ ⟨hl.trans hj, hjr.trans hr, hjt⟩

/-- A search that meets no entry at the address. -/
theorem Searches.settles (hreads : Reads stabs stab first last)
    (hsorted : Increasing stab type first last) {s s' : Search} (hrun : Searches stabs type s s')
    (hl : first ≤ s.l) (hr : s.r ≤ last)
    (hmiss : ∀ i, EntryIn stab type s.l s.r i → (stab i).nValue ≠ s.addr) :
    Settles stab type s s' := by
  induction hrun with
  | @done s hend =>
    have hnone : ∀ i, ¬ EntryIn stab type s.l s.r i := fun i ⟨hlow, hhigh, _⟩ => by omega
    constructor
    · simp [hnone]
    · exact Or.inr ⟨rfl, fun i hi => absurd hi (hnone i)⟩
    · exact Or.inr ⟨rfl, fun i hi => absurd hi (hnone i)⟩
  | @step s t s' hle hstep hrun ih =>
    have hmiddle := middle_mem hle
    have hinside := hsorted.within hl hr
    rcases probe_spec type hreads hl hr hle with ⟨hprobe, hempty⟩ | ⟨m, hm, hcases⟩
    · obtain rfl := Option.some.inj (hstep.symm.trans hprobe)
      refine (ih ?_ hr fun i hi => hmiss i ⟨?_, hi.2.1, hi.2.2⟩).skip hempty hle
      · dsimp only
        omega
      · have hfrom := hi.1
        dsimp only at hfrom
        omega
    · obtain ⟨hlow, hhigh, htype⟩ := hm.1
      rcases hcases with ⟨hbelow, hprobe⟩ | ⟨habove, hprobe⟩ | ⟨hvalue, -⟩
      · obtain rfl := Option.some.inj (hstep.symm.trans hprobe)
        refine (ih ?_ hr fun i hi => hmiss i ⟨?_, hi.2.1, hi.2.2⟩).upper hinside hle hm hbelow
        · dsimp only
          omega
        · have hfrom := hi.1
          dsimp only at hfrom
          omega
      · obtain rfl := Option.some.inj (hstep.symm.trans hprobe)
        refine (ih hl ?_ fun i hi => hmiss i ⟨hi.1, ?_, hi.2.2⟩).lower hinside hle hm habove
        · dsimp only
          omega
        · have hupto := hi.2.1
          dsimp only at hupto
          omega
      · exact absurd hvalue (hmiss m ⟨hlow, by omega, htype⟩)

/-! ## A search up to its exact match -/

/-- The halving of the region compares entry `j` before entry `i`. -/
inductive ComparedFirst (stab : ℤ → Stab) (type : BitVec 8) (i j : ℤ) : ℤ → ℤ → Prop
  | here {l r : ℤ} : Compared stab type l r j → ComparedFirst stab type i j l r
  | upper {l r : ℤ} : middle l r < i → ComparedFirst stab type i j (middle l r + 1) r →
      ComparedFirst stab type i j l r
  | lower {l r m : ℤ} : Compared stab type l r m → j < m →
      ComparedFirst stab type i j l (m - 1) → ComparedFirst stab type i j l r

theorem Compared.unique {l r m n : ℤ} (hm : Compared stab type l r m)
    (hn : Compared stab type l r n) : m = n :=
  le_antisymm (hn.2 m hm.1) (hm.2 n hn.1)

/-- Entries `i` and `j` of the region follow each other. -/
def Adjacent (stab : ℤ → Stab) (type : BitVec 8) (l r i j : ℤ) : Prop :=
  EntryIn stab type l r i ∧ EntryIn stab type l r j ∧ i < j ∧
    ∀ k, EntryIn stab type l r k → k ≤ i ∨ j ≤ k

theorem comparedFirst_upper {l r i j : ℤ} (hij : i < j) (hmiddle : middle l r < i) :
    ComparedFirst stab type i j l r ↔ ComparedFirst stab type i j (middle l r + 1) r := by
  constructor
  · rintro (hj | ⟨-, h⟩ | ⟨hm, hlt, -⟩)
    · have hupto := hj.1.2.1
      omega
    · exact h
    · have hupto := hm.1.2.1
      omega
  · exact ComparedFirst.upper hmiddle

theorem comparedFirst_lower {l r i j m : ℤ} (him : i < m) (hm : Compared stab type l r m)
    (hjm : j < m) : ComparedFirst stab type i j l r ↔ ComparedFirst stab type i j l (m - 1) := by
  constructor
  · rintro (hj | ⟨hupper, -⟩ | ⟨hn, -, h⟩)
    · exact absurd (hm.unique hj) hjm.ne'
    · have hupto := hm.1.2.1
      omega
    · exact hm.unique hn ▸ h
  · exact ComparedFirst.lower hm hjm

theorem not_comparedFirst {l r i j : ℤ} (hij : i < j) (hi : Compared stab type l r i) :
    ¬ ComparedFirst stab type i j l r := by
  rintro (hj | ⟨hupper, -⟩ | ⟨hm, hlt, -⟩)
  · exact absurd (hi.unique hj) hij.ne
  · have hupto := hi.1.2.1
    omega
  · have hsame := hi.unique hm
    omega

/-- A search that meets the entry `i` at its address: it comes to compare `i`, and then goes on
for the next address in what is left behind `i`. -/
theorem Searches.hits (hreads : Reads stabs stab first last)
    (hsorted : Increasing stab type first last) {s s' : Search} (hrun : Searches stabs type s s')
    (hl : first ≤ s.l) (hr : s.r ≤ last) {i : ℤ} (hi : EntryIn stab type s.l s.r i)
    (hvalue : (stab i).nValue = s.addr) :
    ∃ r right, Searches stabs type ⟨i, r, i, right, true, s.addr + 1⟩ s' ∧ i ≤ r ∧ r ≤ s.r ∧
      (r = s.r ∧ right = s.right ∨ right = r ∧ EntryIn stab type s.l s.r (r + 1)) ∧
      ∀ j, Adjacent stab type s.l s.r i j → (r < j ↔ ComparedFirst stab type i j s.l s.r) := by
  induction hrun with
  | @done s hend =>
    obtain ⟨hlow, hhigh, -⟩ := hi
    omega
  | @step s t s' hle hstep hrun ih =>
    have hmiddle := middle_mem hle
    have hinside := hsorted.within hl hr
    -- an iteration that goes on in the upper half
    have hupper : middle s.l s.r < i → t.l = middle s.l s.r + 1 → t.r = s.r →
        t.right = s.right → t.addr = s.addr →
        ∃ r right, Searches stabs type ⟨i, r, i, right, true, s.addr + 1⟩ s' ∧ i ≤ r ∧ r ≤ s.r ∧
          (r = s.r ∧ right = s.right ∨ right = r ∧ EntryIn stab type s.l s.r (r + 1)) ∧
          ∀ j, Adjacent stab type s.l s.r i j →
            (r < j ↔ ComparedFirst stab type i j s.l s.r) := by
      intro hlt htl htr htright htaddr
      have hwiden : ∀ k, EntryIn stab type t.l t.r k → EntryIn stab type s.l s.r k :=
        fun k ⟨hk, hkr, hkt⟩ => ⟨by omega, htr ▸ hkr, hkt⟩
      obtain ⟨r, right, hrest, hir, hrr, hcut, hfirst⟩ := ih (by omega) (by omega)
        ⟨by omega, htr ▸ hi.2.1, hi.2.2⟩ (hvalue.trans htaddr.symm)
      rw [htaddr] at hrest
      rw [htr, htright] at hcut
      refine ⟨r, right, hrest, hir, htr ▸ hrr, ?_, fun j hj => ?_⟩
      · exact hcut.imp_right (And.imp_right fun h => hwiden _ (htr ▸ h))
      · obtain ⟨-, hjin, hij, hbetween⟩ := hj
        rw [comparedFirst_upper hij hlt, ← htl, ← htr]
        exact hfirst j ⟨⟨by omega, htr ▸ hi.2.1, hi.2.2⟩, ⟨by omega, htr ▸ hjin.2.1, hjin.2.2⟩, hij,
          fun k hk => hbetween k (hwiden k hk)⟩
    rcases probe_spec type hreads hl hr hle with ⟨hprobe, hempty⟩ | ⟨m, hm, hcases⟩
    · obtain rfl := Option.some.inj (hstep.symm.trans hprobe)
      refine hupper (Int.not_le.mp fun hupto => ?_) rfl rfl rfl rfl
      exact hempty i ⟨hi.1, hupto, hi.2.2⟩
    · obtain ⟨⟨hlow, hhigh, htype⟩, hmax⟩ := hm
      have hentry : EntryIn stab type s.l s.r m := ⟨hlow, by omega, htype⟩
      rcases hcases with ⟨hbelow, hprobe⟩ | ⟨habove, hprobe⟩ | ⟨hexact, hprobe⟩
      · obtain rfl := Option.some.inj (hstep.symm.trans hprobe)
        refine hupper (Int.not_le.mp fun hupto => ?_) rfl rfl rfl rfl
        have hsame := hinside.le hi hentry (hmax i ⟨hi.1, hupto, hi.2.2⟩)
        bv_omega
      · obtain rfl := Option.some.inj (hstep.symm.trans hprobe)
        have him : i < m := Int.not_le.mp fun hmi => by
          have hsame := hinside.le hentry hi hmi
          bv_omega
        have hwiden : ∀ k, EntryIn stab type s.l (m - 1) k → EntryIn stab type s.l s.r k :=
          fun k ⟨hk, hkr, hkt⟩ => ⟨hk, by omega, hkt⟩
        obtain ⟨r, right, hrest, hir, hrr, hcut, hfirst⟩ := ih hl (by dsimp only; omega)
          ⟨hi.1, by dsimp only; omega, hi.2.2⟩ hvalue
        dsimp only at hrr hcut hfirst
        refine ⟨r, right, hrest, hir, by omega, Or.inr ?_, fun j hj => ?_⟩
        · rcases hcut with ⟨rfl, rfl⟩ | ⟨hright, hnext⟩
          · exact ⟨rfl, by rwa [Int.sub_add_cancel]⟩
          · exact ⟨hright, hwiden _ hnext⟩
        · obtain ⟨-, hjin, hij, hbetween⟩ := hj
          rcases hbetween m hentry with hmi | hjm
          · omega
          rcases hjm.eq_or_lt with rfl | hjm
          · exact iff_of_true (by omega)
              (ComparedFirst.here ⟨⟨hlow, hhigh, htype⟩, hmax⟩)
          · rw [comparedFirst_lower him ⟨⟨hlow, hhigh, htype⟩, hmax⟩ hjm]
            exact hfirst j ⟨⟨hi.1, by omega, hi.2.2⟩, ⟨hjin.1, by omega, hjin.2.2⟩, hij,
              fun k hk => hbetween k (hwiden k hk)⟩
      · obtain rfl := Option.some.inj (hstep.symm.trans hprobe)
        have hsame : m = i := by
          by_contra hne
          rcases lt_or_gt_of_ne hne with hlt | hlt
          · have hless := hinside m i hentry hi hlt
            bv_omega
          · have hless := hinside i m hi hentry hlt
            bv_omega
        subst hsame
        refine ⟨s.r, s.right, hrun, hi.2.1, le_rfl, Or.inl ⟨rfl, rfl⟩, fun j hj => ?_⟩
        exact iff_of_false (Int.not_lt.mpr hj.2.1.2.1)
          (not_comparedFirst hj.2.2.1 ⟨⟨hlow, hhigh, htype⟩, hmax⟩)

/-! ## Where a search ends -/

/-- The last loop finds the last entry behind `left`. -/
theorem rightmost_spec (hreads : Reads stabs stab first last) {left : ℤ} {count : ℕ}
    (hleft : first ≤ left + 1) (hlast : left + count ≤ last) :
    (rightmost stabs type left count = some left ∧
        ∀ i, ¬ EntryIn stab type (left + 1) (left + count) i) ∨
      ∃ m, rightmost stabs type left count = some m ∧
        EntryIn stab type (left + 1) (left + count) m ∧
        ∀ i, EntryIn stab type (left + 1) (left + count) i → i ≤ m := by
  induction count with
  | zero => exact Or.inl ⟨rfl, fun i ⟨hlow, hhigh, _⟩ => by omega⟩
  | succ k ih =>
    rw [Nat.cast_succ] at hlast ⊢
    have hread := hreads.type (left + k + 1) (by omega) (by omega)
    by_cases htype : (stab (left + k + 1)).nType = type
    · refine Or.inr ⟨left + k + 1, ?_, ⟨by omega, by omega, htype⟩, fun i hi => ?_⟩
      · rw [rightmost, hread, Option.bind_eq_bind, Option.bind_some, if_pos htype]
        rfl
      · have hhigh := hi.2.1
        omega
    · have hstep : rightmost stabs type left (k + 1) = rightmost stabs type left k := by
        rw [rightmost, hread, Option.bind_eq_bind, Option.bind_some, if_neg htype]
      have hshrink : ∀ i, EntryIn stab type (left + 1) (left + (k + 1)) i →
          EntryIn stab type (left + 1) (left + k) i := fun i ⟨hlow, hhigh, hi⟩ => by
        have hne : i ≠ left + k + 1 := fun hsame => htype (hsame ▸ hi)
        exact ⟨hlow, by omega, hi⟩
      rw [hstep]
      rcases ih (by omega) with ⟨hnone, hempty⟩ | ⟨m, hfound, hm, hmax⟩
      · exact Or.inl ⟨hnone, fun i hi => hempty i (hshrink i hi)⟩
      · exact Or.inr ⟨m, hfound, ⟨hm.1, by have hhigh := hm.2.1; omega, hm.2.2⟩,
          fun i hi => hmax i (hshrink i hi)⟩

/-- The bounds that a search leaves, whatever the table holds. -/
structure EndsIn (stab : ℤ → Stab) (type : BitVec 8) (s s' : Search) : Prop where
  left : s'.left = s.left ∨ EntryIn stab type s.l s.r s'.left
  right : s'.right = s.right ∨ EntryIn stab type s.l s.r (s'.right + 1)
  none : s'.anyMatches = false → s'.left = s.left ∧ ∀ i, ¬ EntryIn stab type s.l s.r i
  any : s.anyMatches = true → s'.anyMatches = true

theorem Searches.endsIn (hreads : Reads stabs stab first last) {s s' : Search}
    (hrun : Searches stabs type s s') (hl : first ≤ s.l) (hr : s.r ≤ last) :
    EndsIn stab type s s' := by
  induction hrun with
  | @done s hend =>
    exact ⟨Or.inl rfl, Or.inl rfl, fun _ => ⟨rfl, fun i ⟨hlow, hhigh, _⟩ => by omega⟩, id⟩
  | @step s t s' hle hstep hrun ih =>
    have hmiddle := middle_mem hle
    rcases probe_spec type hreads hl hr hle with ⟨hprobe, hempty⟩ | ⟨m, hm, hcases⟩
    · obtain rfl := Option.some.inj (hstep.symm.trans hprobe)
      have hwiden : ∀ i, EntryIn stab type (middle s.l s.r + 1) s.r i →
          EntryIn stab type s.l s.r i := fun i ⟨hi, hir, hit⟩ => ⟨by omega, hir, hit⟩
      obtain ⟨hleft, hright, hnone, hany⟩ := ih (by dsimp only; omega) hr
      refine ⟨hleft.imp_right (hwiden _), hright.imp_right (hwiden _), fun hno => ?_, hany⟩
      obtain ⟨hsame, hrest⟩ := hnone hno
      refine ⟨hsame, fun i hi => ?_⟩
      by_cases hupto : i ≤ middle s.l s.r
      · exact hempty i ⟨hi.1, hupto, hi.2.2⟩
      · exact hrest i ⟨by dsimp only; omega, hi.2.1, hi.2.2⟩
    · obtain ⟨⟨hlow, hhigh, htype⟩, -⟩ := hm
      have hentry : EntryIn stab type s.l s.r m := ⟨hlow, by omega, htype⟩
      rcases hcases with ⟨-, hprobe⟩ | ⟨-, hprobe⟩ | ⟨-, hprobe⟩
      · obtain rfl := Option.some.inj (hstep.symm.trans hprobe)
        have hwiden : ∀ i, EntryIn stab type (middle s.l s.r + 1) s.r i →
            EntryIn stab type s.l s.r i := fun i ⟨hi, hir, hit⟩ => ⟨by omega, hir, hit⟩
        obtain ⟨hleft, hright, -, hany⟩ := ih (by dsimp only; omega) hr
        exact ⟨Or.inr (hleft.elim (fun hsame => hsame ▸ hentry) (hwiden _)),
          hright.imp_right (hwiden _), fun hno => absurd (hany rfl) (by simp [hno]),
          fun _ => hany rfl⟩
      · obtain rfl := Option.some.inj (hstep.symm.trans hprobe)
        have hwiden : ∀ i, EntryIn stab type s.l (m - 1) i → EntryIn stab type s.l s.r i :=
          fun i ⟨hi, hir, hit⟩ => ⟨hi, by omega, hit⟩
        obtain ⟨hleft, hright, -, hany⟩ := ih hl (by dsimp only; omega)
        refine ⟨hleft.imp_right (hwiden _), Or.inr ?_,
          fun hno => absurd (hany rfl) (by simp [hno]), fun _ => hany rfl⟩
        rcases hright with hsame | hnext
        · rwa [hsame, Int.sub_add_cancel]
        · exact hwiden _ hnext
      · obtain rfl := Option.some.inj (hstep.symm.trans hprobe)
        have hwiden : ∀ i, EntryIn stab type m s.r i → EntryIn stab type s.l s.r i :=
          fun i ⟨hi, hir, hit⟩ => ⟨hlow.trans hi, hir, hit⟩
        obtain ⟨hleft, hright, -, hany⟩ := ih (hl.trans hlow) hr
        exact ⟨Or.inr (hleft.elim (fun hsame => hsame ▸ hentry) (hwiden _)),
          hright.imp_right (hwiden _), fun hno => absurd (hany rfl) (by simp [hno]),
          fun _ => hany rfl⟩

/-- The variables at the start of `stab_binsearch`. -/
def Search.start (left right : ℤ) (addr : Word) : Search :=
  ⟨left, right, left, right, false, addr⟩

/-- What `stab_binsearch` makes of the variables that the loop leaves. -/
def Brackets (stab : ℤ → Stab) (type : BitVec 8) (s : Search) (left right : ℤ) : Prop :=
  s.anyMatches = false ∧ left = s.left ∧ right = s.left - 1 ∨
    s.anyMatches = true ∧ s.right ≤ s.left ∧ left = s.right ∧ right = s.right ∨
    s.anyMatches = true ∧ s.left < s.right ∧ right = s.right ∧
      (left = s.left ∨ EntryIn stab type (s.left + 1) s.right left) ∧
      ∀ i, EntryIn stab type (s.left + 1) s.right i → i ≤ left

variable (type) in
/-- `stab_binsearch` returns, whatever the table holds, and reads only the region. -/
theorem stabBinsearch_spec (hreads : Reads stabs stab first last) (addr : Word) :
    ∃ s left right, Searches stabs type (Search.start first last addr) s ∧
      EndsIn stab type (Search.start first last addr) s ∧ Brackets stab type s left right ∧
      stabBinsearch stabs type first last addr = some (left, right) := by
  have hfuel : (Search.start first last addr).fuel stab type ≤
      2 * (last - first + 1).toNat + 1 := by
    rw [Search.fuel]
    split <;> exact Nat.add_le_add_left (by decide) _
  obtain ⟨s, hloop, hrun⟩ := searchLoop_ends type hreads (le_refl first) le_rfl hfuel
  have hends := hrun.endsIn hreads le_rfl le_rfl
  have hresult : stabBinsearch stabs type first last addr =
      if s.anyMatches = false then some (s.left, s.left - 1)
      else if s.right ≤ s.left then some (s.right, s.right)
      else (rightmost stabs type s.left (s.right - s.left).toNat).map (·, s.right) := by
    rw [Search.start] at hloop
    rw [stabBinsearch, hloop, Option.bind_eq_bind, Option.bind_some, Option.map_eq_bind]
    rfl
  cases hany : s.anyMatches with
  | false =>
    exact ⟨s, s.left, s.left - 1, hrun, hends, Or.inl ⟨hany, rfl, rfl⟩, by rw [hresult, if_pos hany]⟩
  | true =>
    rw [if_neg (by simp [hany])] at hresult
    by_cases hle : s.right ≤ s.left
    · exact ⟨s, s.right, s.right, hrun, hends, Or.inr (Or.inl ⟨hany, hle, rfl, rfl⟩),
        by rw [hresult, if_pos hle]⟩
    · rw [if_neg hle] at hresult
      have hcount : s.left + ((s.right - s.left).toNat : ℤ) = s.right := by omega
      have hlow : first ≤ s.left := by
        rcases hends.left with hsame | hentry
        · exact hsame.ge
        · exact hentry.1
      have hhigh : s.right ≤ last := by
        rcases hends.right with hsame | hentry
        · exact hsame.le
        · have hupto := hentry.2.1
          rw [Search.start] at hupto
          dsimp only at hupto
          omega
      have hscan : _ ∨ ∃ m, rightmost stabs type s.left (s.right - s.left).toNat = some m ∧ _ :=
        rightmost_spec hreads (by omega) (by omega)
      rw [hcount] at hscan
      have hlt : s.left < s.right := by omega
      rcases hscan with ⟨hnone, hempty⟩ | ⟨m, hfound, hm, hmax⟩
      · exact ⟨s, s.left, s.right, hrun, hends, Or.inr (Or.inr ⟨hany, hlt, rfl, Or.inl rfl,
          fun i hi => absurd hi (hempty i)⟩), by rw [hresult, hnone, Option.map_some]⟩
      · exact ⟨s, m, s.right, hrun, hends, Or.inr (Or.inr ⟨hany, hlt, rfl, Or.inr hm, hmax⟩),
          by rw [hresult, hfound, Option.map_some]⟩

/-! ## The region found -/

/-- The last entry of the region up to `addr`. -/
def LastUpTo (stab : ℤ → Stab) (type : BitVec 8) (l r : ℤ) (addr : Word) (i : ℤ) : Prop :=
  EntryIn stab type l r i ∧ (stab i).nValue ≤ addr ∧
    ∀ j, EntryIn stab type l r j → (stab j).nValue ≤ addr → j ≤ i

/-- Index `right` is the last before the entry that follows entry `i`. -/
def ClosedBy (stab : ℤ → Stab) (type : BitVec 8) (l r i right : ℤ) : Prop :=
  (∃ j, Adjacent stab type l r i j ∧ right = j - 1) ∨
    (∀ j, EntryIn stab type l r j → j ≤ i) ∧ right = r

/-- What the comment of the call promises: the last entry up to `addr` with the indices that belong
to it, and an empty region when there is no entry. -/
def Finds (stabs : Stabs) (stab : ℤ → Stab) (type : BitVec 8) (first last : ℤ) (addr : Word) :
    Prop :=
  ∃ left right, stabBinsearch stabs type first last addr = some (left, right) ∧
    (∀ i, LastUpTo stab type first last addr i →
      left = i ∧ ClosedBy stab type first last i right) ∧
    ((∀ i, ¬ EntryIn stab type first last i) → left = first ∧ right < left)

/-- The call returns, without a read outside the region, what its comment promises: the last entry
up to `addr` with the indices that belong to it, and an empty region when there is no entry. -/
def FindsStab (stab : ℤ → Stab) (type : BitVec 8) (first last : ℤ) (addr : Word) : Prop :=
  ∃ left right,
    stabBinsearch (Stabs.within stab first last) type first last addr = some (left, right) ∧
    (∀ i, LastUpTo stab type first last addr i →
      left = i ∧ ClosedBy stab type first last i right) ∧
    ((∀ i, ¬ EntryIn stab type first last i) → left = first ∧ right < left)

theorem ClosedBy.ge {i right : ℤ} (hi : EntryIn stab type first last i)
    (h : ClosedBy stab type first last i right) : i ≤ right := by
  rcases h with ⟨j, hj, hright⟩ | ⟨-, hright⟩
  · have hij := hj.2.2.1
    omega
  · exact hright ▸ hi.2.1

theorem ClosedBy.entry_le {i right j : ℤ} (h : ClosedBy stab type first last i right)
    (hj : EntryIn stab type first last j) (hle : j ≤ right) : j ≤ i := by
  rcases h with ⟨k, hk, hright⟩ | ⟨hall, -⟩
  · rcases hk.2.2.2 j hj with hji | hkj
    · exact hji
    · omega
  · exact hall j hj

/-- A loop that leaves an entry and its last index. -/
theorem Brackets.of_closed {s : Search} {left right : ℤ} (h : Brackets stab type s left right)
    (hany : s.anyMatches = true) (hi : EntryIn stab type first last s.left)
    (hclosed : ClosedBy stab type first last s.left s.right) :
    left = s.left ∧ right = s.right := by
  have hle := hclosed.ge hi
  rcases h with ⟨hnone, -⟩ | ⟨-, hge, hleft, hright⟩ | ⟨-, hlt, hright, hleft, -⟩
  · exact absurd hany (by simp [hnone])
  · exact ⟨by omega, hright⟩
  · refine ⟨?_, hright⟩
    rcases hleft with hsame | ⟨hlow, hhigh, htype⟩
    · exact hsame
    · have hupto : s.right ≤ last := by
        rcases hclosed with ⟨j, hj, hsame⟩ | ⟨-, hsame⟩
        · have hjlast := hj.2.1.2.1
          omega
        · exact hsame.le
      have hback := hclosed.entry_le ⟨by have hfirst := hi.1; omega, hhigh.trans hupto, htype⟩ hhigh
      omega

/-- Without an exact match the search is right. -/
theorem finds_of_miss (hreads : Reads stabs stab first last)
    (hsorted : Increasing stab type first last) {addr : Word}
    (hmiss : ∀ i, EntryIn stab type first last i → (stab i).nValue ≠ addr) :
    Finds stabs stab type first last addr := by
  obtain ⟨s, left, right, hrun, -, hbrackets, hresult⟩ := stabBinsearch_spec type hreads addr
  obtain ⟨hany, hleft, hright⟩ := hrun.settles hreads hsorted (le_refl first) le_rfl hmiss
  dsimp only [Search.start] at hany hleft hright
  refine ⟨left, right, hresult, fun i hlast => ?_, fun hnone => ?_⟩
  · obtain ⟨hi, hle, hmax⟩ := hlast
    have hlt : (stab i).nValue < addr := by
      have hne := hmiss i hi
      bv_omega
    have hsame : s.left = i := by
      rcases hleft with ⟨hentry, hbelow, hlast⟩ | ⟨-, hall⟩
      · exact le_antisymm (hmax _ hentry (BitVec.le_of_lt hbelow)) (hlast i hi hlt)
      · exact absurd hlt (BitVec.lt_asymm (hall i hi))
    have hclosed : ClosedBy stab type first last i s.right := by
      rcases hright with ⟨hentry, habove, hfirst⟩ | ⟨hend, hall⟩
      · refine Or.inl ⟨_, ⟨hi, hentry, Int.not_le.mp fun hback => ?_, fun k hk => ?_⟩, by omega⟩
        · have hvalue := hsorted.le hentry hi hback
          bv_omega
        · by_cases hk' : addr < (stab k).nValue
          · exact Or.inr (hfirst k hk hk')
          · exact Or.inl (hmax k hk (BitVec.not_lt.mp hk'))
      · exact Or.inr ⟨fun j hj => hmax j hj (BitVec.le_of_lt (hall j hj)), hend⟩
    obtain ⟨rfl, rfl⟩ := hbrackets.of_closed (hany.mpr (Or.inr ⟨i, hi⟩)) (hsame ▸ hi)
      (hsame ▸ hclosed)
    exact ⟨hsame, hclosed⟩
  · have hno : s.anyMatches = false := by
      cases hsome : s.anyMatches with
      | false => rfl
      | true =>
        rcases hany.mp hsome with hfalse | ⟨i, hi⟩
        · exact absurd hfalse (by decide)
        · exact absurd hi (hnone i)
    have hfirst : s.left = first := hleft.elim (fun h => absurd h.1 (hnone _)) And.left
    rcases hbrackets with ⟨-, hl, hr⟩ | ⟨hyes, -⟩ | ⟨hyes, -⟩
    · exact ⟨hl.trans hfirst, by omega⟩
    · exact absurd hyes (by simp [hno])
    · exact absurd hyes (by simp [hno])

/-- The greatest address. -/
def maxAddr : Word := 0xffffffff

/-- After a match at the greatest address the search goes on for address 0 and cuts off the entry
that it has found. -/
theorem Searches.wraps (hreads : Reads stabs stab first last)
    (hsorted : Increasing stab type first last) {i r : ℤ} {s' : Search}
    (hrun : Searches stabs type ⟨i, r, i, r, true, 0⟩ s') (hi : EntryIn stab type first last i)
    (hir : i ≤ r) (hr : r ≤ last) (hvalue : (stab i).nValue = maxAddr) :
    s'.anyMatches = true ∧ s'.left = i ∧ s'.right = i - 1 := by
  have hpos : ∀ j, EntryIn stab type i r j → (0 : Word) < (stab j).nValue := fun j hj => by
    have hle := hsorted.le hi ⟨hi.1.trans hj.1, hj.2.1.trans hr, hj.2.2⟩ hj.1
    rw [hvalue, maxAddr] at hle
    bv_omega
  have hentry : EntryIn stab type i r i := ⟨le_rfl, hir, hi.2.2⟩
  obtain ⟨hany, hleft, hright⟩ := hrun.settles hreads hsorted hi.1 hr fun j hj => by
    have hj := hpos j hj
    dsimp only
    bv_omega
  dsimp only at hany hleft hright
  refine ⟨hany.mpr (Or.inl rfl), ?_, ?_⟩
  · rcases hleft with ⟨hbelow, hlt, -⟩ | ⟨hsame, -⟩
    · exact absurd hlt (BitVec.lt_asymm (hpos _ hbelow))
    · exact hsame
  · rcases hright with ⟨habove, -, hfirst⟩ | ⟨-, hall⟩
    · have hle := hfirst i hentry (hpos i hentry)
      have hge := habove.1
      omega
    · exact absurd (hpos i hentry) (BitVec.lt_asymm (hall i hentry))

/-- The right end stays behind an entry below the address. -/
theorem Searches.right_ge (hreads : Reads stabs stab first last) {b : ℤ} {s s' : Search}
    (hrun : Searches stabs type s s') (hl : first ≤ s.l) (hr : s.r ≤ last) (hb : b ≤ s.right)
    (hpast : b < s.l ∨ s.l = b ∧ (stab b).nType = type ∧ (stab b).nValue < s.addr) :
    b ≤ s'.right := by
  induction hrun with
  | done => exact hb
  | @step s t s' hle hstep hrun ih =>
    have hmiddle := middle_mem hle
    rcases probe_spec type hreads hl hr hle with ⟨hprobe, -⟩ | ⟨m, hm, hcases⟩
    · obtain rfl := Option.some.inj (hstep.symm.trans hprobe)
      exact ih (by dsimp only; omega) hr hb (Or.inl (by dsimp only; omega))
    · obtain ⟨⟨hlow, hhigh, -⟩, -⟩ := hm
      rcases hcases with ⟨-, hprobe⟩ | ⟨habove, hprobe⟩ | ⟨hexact, hprobe⟩
      · obtain rfl := Option.some.inj (hstep.symm.trans hprobe)
        exact ih (by dsimp only; omega) hr hb (Or.inl (by dsimp only; omega))
      · obtain rfl := Option.some.inj (hstep.symm.trans hprobe)
        refine ih hl (by dsimp only; omega) ?_ hpast
        have hne : m ≠ b := by
          rintro rfl
          rcases hpast with hlt | ⟨-, -, hbelow⟩
          · omega
          · exact BitVec.lt_asymm habove hbelow
        dsimp only
        omega
      · obtain rfl := Option.some.inj (hstep.symm.trans hprobe)
        have hne : m ≠ b := by
          rintro rfl
          rcases hpast with hlt | ⟨-, -, hbelow⟩
          · omega
          · rw [hexact] at hbelow
            exact BitVec.lt_irrefl _ hbelow
        exact ih (hl.trans hlow) hr hb (Or.inl (by dsimp only; omega))

/-- An exact match is the last entry up to the address. -/
theorem Increasing.lastUpTo (hsorted : Increasing stab type first last) {i : ℤ}
    (hi : EntryIn stab type first last i) :
    LastUpTo stab type first last (stab i).nValue i :=
  ⟨hi, BitVec.le_refl _, fun j hj hle => Int.not_lt.mp fun hlt => by
    have hless := hsorted i j hi hj hlt
    bv_omega⟩

theorem Increasing.unique (hsorted : Increasing stab type first last) {i j : ℤ}
    (hi : EntryIn stab type first last i) (hj : EntryIn stab type first last j)
    (hvalue : (stab i).nValue = (stab j).nValue) : i = j :=
  le_antisymm ((hsorted.lastUpTo hj).2.2 i hi (hvalue ▸ BitVec.le_refl _))
    ((hsorted.lastUpTo hi).2.2 j hj (hvalue ▸ BitVec.le_refl _))

/-- The entry at the address after that of `i` follows `i`. -/
theorem Increasing.adjacent (hsorted : Increasing stab type first last) {i j : ℤ}
    (hi : EntryIn stab type first last i) (hj : EntryIn stab type first last j)
    (hmax : (stab i).nValue ≠ maxAddr) (hnext : (stab j).nValue = (stab i).nValue + 1) :
    Adjacent stab type first last i j := by
  rw [maxAddr] at hmax
  refine ⟨hi, hj, Int.not_le.mp fun hji => ?_, fun k hk => ?_⟩
  · have hle := hsorted.le hj hi hji
    bv_omega
  · by_contra hbetween
    have hik := hsorted i k hi hk (by omega)
    have hkj := hsorted k j hk hj (by omega)
    bv_omega

/-- After a match whose next address has no entry in what is left, the search ends with the entry
matched and its last index. -/
theorem Searches.closes (hreads : Reads stabs stab first last)
    (hsorted : Increasing stab type first last) {i r : ℤ} {addr : Word} {s' : Search}
    (hrun : Searches stabs type ⟨i, r, i, r, true, addr + 1⟩ s')
    (hi : EntryIn stab type first last i) (hvalue : (stab i).nValue = addr) (hmax : addr ≠ maxAddr)
    (hir : i ≤ r) (hcut : r = last ∨ r < last ∧ (stab (r + 1)).nType = type)
    (hmiss : ∀ j, EntryIn stab type i r j → (stab j).nValue ≠ addr + 1) :
    s'.anyMatches = true ∧ s'.left = i ∧ ClosedBy stab type first last i s'.right := by
  rw [maxAddr] at hmax
  have hr : r ≤ last := by
    rcases hcut with hsame | ⟨hlt, -⟩ <;> omega
  have hwiden : ∀ j, EntryIn stab type i r j → EntryIn stab type first last j :=
    fun j hj => ⟨hi.1.trans hj.1, hj.2.1.trans hr, hj.2.2⟩
  have hentry : EntryIn stab type i r i := ⟨le_rfl, hir, hi.2.2⟩
  have hbelow : (stab i).nValue < addr + 1 := by bv_omega
  have habove : ∀ j, EntryIn stab type i r j → i < j → addr + 1 < (stab j).nValue :=
    fun j hj hij => by
      have hless := hsorted i j hi (hwiden j hj) hij
      have hne := hmiss j hj
      bv_omega
  obtain ⟨hany, hleft, hright⟩ := hrun.settles hreads hsorted hi.1 hr hmiss
  dsimp only at hany hleft hright
  refine ⟨hany.mpr (Or.inl rfl), ?_, ?_⟩
  · rcases hleft with ⟨hj, hlt, hlast⟩ | ⟨hsame, -⟩
    · by_contra hne
      have hij := hlast i hentry hbelow
      exact BitVec.lt_asymm hlt (habove _ hj (lt_of_le_of_ne hij (Ne.symm hne)))
    · exact hsame
  · rcases hright with ⟨hj, hlt, hfirst⟩ | ⟨hsame, hall⟩
    · have hij : i < s'.right + 1 := lt_of_le_of_ne hj.1 fun hsame => by
        rw [← hsame] at hlt
        exact BitVec.lt_asymm hbelow hlt
      refine Or.inl ⟨_, ⟨hi, hwiden _ hj, hij, fun k hk => ?_⟩, by omega⟩
      by_contra hbetween
      have hkr := hj.2.1
      have hk' : EntryIn stab type i r k := ⟨by omega, by omega, hk.2.2⟩
      have hle := hfirst k hk' (habove k hk' (by omega))
      omega
    · have hnone : ∀ k, EntryIn stab type i r k → k ≤ i := fun k hk => Int.not_lt.mp fun hik =>
        BitVec.lt_asymm (hall k hk) (habove k hk hik)
      rcases hcut with hend | ⟨hlt, htype⟩
      · refine Or.inr ⟨fun k hk => Int.not_lt.mp fun hik => ?_, hsame.trans hend⟩
        have hback := hnone k ⟨hik.le, hend ▸ hk.2.1, hk.2.2⟩
        omega
      · have hfrom := hi.1
        refine Or.inl ⟨r + 1, ⟨hi, ⟨by omega, by omega, htype⟩, by omega, fun k hk => ?_⟩, by omega⟩
        by_contra hbetween
        have hback := hnone k ⟨by omega, by omega, hk.2.2⟩
        omega

/-- After a match that the next address follows the search leaves the entry matched. -/
theorem Searches.passes (hreads : Reads stabs stab first last)
    (hsorted : Increasing stab type first last) {i j r : ℤ} {addr : Word} {s' : Search}
    (hrun : Searches stabs type ⟨i, r, i, r, true, addr⟩ s') (hfirst : first ≤ i) (hr : r ≤ last)
    (hj : EntryIn stab type i r j) (hvalue : (stab j).nValue = addr) :
    s'.anyMatches = true ∧
      if addr = maxAddr then s'.left = j ∧ s'.right = j - 1 else j ≤ s'.left ∧ j ≤ s'.right := by
  obtain ⟨r', right, hrest, hjr, hrr, hcut, -⟩ := hrun.hits hreads hsorted hfirst hr hj hvalue
  dsimp only at hrest hrr hcut
  have hsame : right = r' := by
    rcases hcut with ⟨hr', hright⟩ | ⟨hright, -⟩
    · rw [hr', hright]
    · exact hright
  subst hsame
  have hjin : EntryIn stab type first last j := ⟨hfirst.trans hj.1, hj.2.1.trans hr, hj.2.2⟩
  split
  case isTrue hmax =>
    rw [hmax, show maxAddr + 1 = 0 by decide] at hrest
    exact hrest.wraps hreads hsorted hjin hjr (hrr.trans hr) (hvalue.trans hmax)
  case isFalse hmax =>
    rw [maxAddr] at hmax
    have hends := hrest.endsIn hreads (hjin.1) (hrr.trans hr)
    refine ⟨hends.any rfl, ?_, ?_⟩
    · rcases hends.left with hsame | hentry
      · exact hsame.ge
      · exact hentry.1
    · refine hrest.right_ge hreads hjin.1 (hrr.trans hr) hjr (Or.inr ⟨rfl, hj.2.2, ?_⟩)
      dsimp only
      bv_omega

/-- After an exact match the search is right when it does not come upon the next address. -/
theorem finds_match_iff (hreads : Reads stabs stab first last)
    (hsorted : Increasing stab type first last) {addr : Word} {i : ℤ}
    (hi : EntryIn stab type first last i) (hvalue : (stab i).nValue = addr) :
    Finds stabs stab type first last addr ↔
      addr ≠ maxAddr ∧ ∀ j, EntryIn stab type first last j → (stab j).nValue = addr + 1 →
        ComparedFirst stab type i j first last ∨ (stab j).nValue = maxAddr ∧ j = i + 1 := by
  have hlast := hsorted.lastUpTo hi
  rw [hvalue] at hlast
  obtain ⟨s, left, right, hrun, -, hbrackets, hresult⟩ := stabBinsearch_spec type hreads addr
  have hfinds : Finds stabs stab type first last addr ↔
      left = i ∧ ClosedBy stab type first last i right := by
    constructor
    · rintro ⟨left', right', hresult', hfinds, -⟩
      obtain ⟨rfl, rfl⟩ := Prod.mk.inj (Option.some.inj (hresult.symm.trans hresult'))
      exact hfinds i hlast
    · intro h
      refine ⟨left, right, hresult, fun k hk => ?_, fun hnone => absurd hi (hnone i)⟩
      have hsame : k = i := le_antisymm (hlast.2.2 k hk.1 hk.2.1) (hk.2.2 i hi hlast.2.1)
      exact hsame ▸ h
  obtain ⟨r, right', hrest, hir, hrlast, hcut, hcompared⟩ :=
    hrun.hits hreads hsorted (le_refl first) le_rfl hi hvalue
  dsimp only [Search.start] at hrest hrlast hcut hcompared
  have hsame : right' = r := by
    rcases hcut with ⟨hr, hright⟩ | ⟨hright, -⟩
    · rw [hr, hright]
    · exact hright
  subst hsame
  rw [hfinds]
  by_cases hmax : addr = maxAddr
  · -- the search goes on for address 0
    rw [hmax, show maxAddr + 1 = 0 by decide] at hrest
    obtain ⟨hany, hleft, hright⟩ := hrest.wraps hreads hsorted hi hir hrlast (hvalue.trans hmax)
    refine iff_of_false (fun ⟨hl, _⟩ => ?_) fun h => h.1 hmax
    rcases hbrackets with ⟨hnone, -⟩ | ⟨-, -, hl', -⟩ | ⟨-, hlt, -⟩
    · exact absurd hany (by simp [hnone])
    · omega
    · omega
  by_cases hnext : ∃ j, EntryIn stab type i right' j ∧ (stab j).nValue = addr + 1
  · obtain ⟨j, hj, hjvalue⟩ := hnext
    have hjin : EntryIn stab type first last j := ⟨hi.1.trans hj.1, hj.2.1.trans hrlast, hj.2.2⟩
    have hadjacent := hsorted.adjacent hi hjin (hvalue ▸ hmax) (hvalue ▸ hjvalue)
    have hij := hadjacent.2.2.1
    have hnot : ¬ ComparedFirst stab type i j first last := fun h => by
      have hlt := (hcompared j hadjacent).mpr h
      have hle := hj.2.1
      omega
    have hcond : (addr ≠ maxAddr ∧ ∀ n, EntryIn stab type first last n →
        (stab n).nValue = addr + 1 →
          ComparedFirst stab type i n first last ∨ (stab n).nValue = maxAddr ∧ n = i + 1) ↔
        (stab j).nValue = maxAddr ∧ j = i + 1 := by
      constructor
      · exact fun h => (h.2 j hjin hjvalue).resolve_left hnot
      · intro h
        exact ⟨hmax, fun n hn hnvalue =>
          Or.inr (hsorted.unique hn hjin (hnvalue.trans hjvalue.symm) ▸ h)⟩
    obtain ⟨hany, hends⟩ := hrest.passes hreads hsorted hi.1 hrlast hj hjvalue
    rw [hcond]
    by_cases hjmax : addr + 1 = maxAddr
    · rw [if_pos hjmax] at hends
      obtain ⟨hl, hr⟩ : left = j - 1 ∧ right = j - 1 := by
        rcases hbrackets with ⟨hnone, -⟩ | ⟨-, -, hl, hr⟩ | ⟨-, hlt, -⟩
        · exact absurd hany (by simp [hnone])
        · omega
        · omega
      constructor
      · rintro ⟨hli, -⟩
        exact ⟨hjvalue.trans hjmax, by omega⟩
      · rintro ⟨-, hji⟩
        exact ⟨by omega, Or.inl ⟨j, hadjacent, hr⟩⟩
    · rw [if_neg hjmax] at hends
      refine iff_of_false (fun ⟨hl, _⟩ => ?_) fun ⟨h, _⟩ => hjmax (hjvalue.symm.trans h)
      rcases hbrackets with ⟨hnone, -⟩ | ⟨-, -, hl', -⟩ | ⟨-, hlt, hr', hl' | hentry, -⟩
      · exact absurd hany (by simp [hnone])
      · omega
      · omega
      · have hfrom := hentry.1
        omega
  · have hmiss : ∀ j, EntryIn stab type i right' j → (stab j).nValue ≠ addr + 1 :=
      fun j hj hjvalue => hnext ⟨j, hj, hjvalue⟩
    have hcut' : right' = last ∨ right' < last ∧ (stab (right' + 1)).nType = type := by
      rcases hcut with ⟨hend, -⟩ | ⟨-, hentry⟩
      · exact Or.inl hend
      · exact Or.inr ⟨by have hle := hentry.2.1; omega, hentry.2.2⟩
    obtain ⟨hany, hleft, hclosed⟩ :=
      hrest.closes hreads hsorted hi hvalue hmax hir hcut' hmiss
    obtain ⟨hl, hr⟩ := hbrackets.of_closed hany (hleft ▸ hi) (hleft ▸ hclosed)
    refine iff_of_true ⟨hl.trans hleft, hr ▸ hclosed⟩ ⟨hmax, fun j hj hjvalue => Or.inl ?_⟩
    have hadjacent := hsorted.adjacent hi hj (hvalue ▸ hmax) (hvalue ▸ hjvalue)
    refine (hcompared j hadjacent).mp (Int.not_le.mp fun hle => ?_)
    exact hmiss j ⟨hadjacent.2.2.1.le, hle, hj.2.2⟩ hjvalue

/-- A search does not come upon the address after that of an exact match. -/
def Separated (stab : ℤ → Stab) (type : BitVec 8) (first last : ℤ) (addr : Word) : Prop :=
  ∀ i, EntryIn stab type first last i → (stab i).nValue = addr → addr ≠ maxAddr ∧
    ∀ j, EntryIn stab type first last j → (stab j).nValue = addr + 1 →
      ComparedFirst stab type i j first last ∨ (stab j).nValue = maxAddr ∧ j = i + 1

theorem Separated.finds {addr : Word} (hseparated : Separated stab type first last addr)
    (hreads : Reads stabs stab first last) (hsorted : Increasing stab type first last) :
    Finds stabs stab type first last addr := by
  by_cases hmiss : ∀ i, EntryIn stab type first last i → (stab i).nValue ≠ addr
  · exact finds_of_miss hreads hsorted hmiss
  · obtain ⟨i, hi, hvalue⟩ : ∃ i, EntryIn stab type first last i ∧ (stab i).nValue = addr := by
      simpa using hmiss
    exact (finds_match_iff hreads hsorted hi hvalue).mpr (hseparated i hi hvalue)

/-- `stab_binsearch` finds the region of an address except after an exact match that the entry of
the next address follows, or that is at the greatest address. -/
theorem findsStab_iff (hsorted : Increasing stab type first last) (addr : Word) :
    FindsStab stab type first last addr ↔
      ∀ i, EntryIn stab type first last i → (stab i).nValue = addr → addr ≠ maxAddr ∧
        ∀ j, EntryIn stab type first last j → (stab j).nValue = addr + 1 →
          ComparedFirst stab type i j first last ∨ (stab j).nValue = maxAddr ∧ j = i + 1 := by
  have hreads := Reads.of_within stab first last
  constructor
  · intro hfinds i hi hvalue
    exact (finds_match_iff hreads hsorted hi hvalue).mp hfinds
  · intro hseparated
    exact Separated.finds hseparated hreads hsorted

/-! ## The three outcomes -/

theorem Separated.found {addr : Word} (hseparated : Separated stab type first last addr)
    (hreads : Reads stabs stab first last) (hsorted : Increasing stab type first last) {i : ℤ}
    (hi : LastUpTo stab type first last addr i) :
    ∃ right, stabBinsearch stabs type first last addr = some (i, right) ∧
      ClosedBy stab type first last i right := by
  obtain ⟨left, right, hresult, hfinds, -⟩ := hseparated.finds hreads hsorted
  obtain ⟨rfl, hclosed⟩ := hfinds i hi
  exact ⟨right, hresult, hclosed⟩

/-- Without an entry the region left is empty. -/
theorem stabBinsearch_none (hreads : Reads stabs stab first last) (addr : Word)
    (hnone : ∀ i, ¬ EntryIn stab type first last i) :
    stabBinsearch stabs type first last addr = some (first, first - 1) := by
  obtain ⟨s, left, right, hrun, hends, hbrackets, hresult⟩ := stabBinsearch_spec type hreads addr
  have hsorted : Increasing stab type first last := fun i _ hi => absurd hi (hnone i)
  obtain ⟨hany, -, -⟩ := hrun.settles hreads hsorted (le_refl first) le_rfl
    fun i hi => absurd hi (hnone i)
  have hno : s.anyMatches = false := by
    cases hsome : s.anyMatches with
    | false => rfl
    | true =>
      rcases hany.mp hsome with hfalse | ⟨i, hi⟩
      · cases hfalse
      · exact absurd hi (hnone i)
  have hleft : s.left = first := (hends.none hno).1
  rcases hbrackets with ⟨-, rfl, rfl⟩ | ⟨hyes, -⟩ | ⟨hyes, -⟩
  · rw [hresult, hleft]
  · exact absurd hyes (by simp [hno])
  · exact absurd hyes (by simp [hno])

/-- When all entries are above the address, what lies before the first of them is left. -/
theorem stabBinsearch_above (hreads : Reads stabs stab first last)
    (hsorted : Increasing stab type first last) {addr : Word} {f : ℤ}
    (hf : FirstAbove stab type first last addr f) (hlow : first < f)
    (habove : ∀ i, EntryIn stab type first last i → addr < (stab i).nValue) :
    stabBinsearch stabs type first last addr = some (first, f - 1) := by
  obtain ⟨s, left, right, hrun, -, hbrackets, hresult⟩ := stabBinsearch_spec type hreads addr
  obtain ⟨hany, hleft, hright⟩ := hrun.settles hreads hsorted (le_refl first) le_rfl
    fun i hi hvalue => BitVec.lt_irrefl _ (hvalue ▸ habove i hi)
  dsimp only [Search.start] at hany hleft hright
  have hleft : s.left = first := by
    rcases hleft with ⟨hi, hbelow, -⟩ | ⟨hsame, -⟩
    · exact absurd (habove _ hi) (BitVec.lt_asymm hbelow)
    · exact hsame
  have hright : s.right = f - 1 := by
    rcases hright with ⟨hi, hvalue, hmin⟩ | ⟨-, hall⟩
    · have hle := hmin f hf.1 hf.2.1
      have hge := hf.2.2 _ hi hvalue
      omega
    · exact absurd (hall f hf.1) (BitVec.lt_asymm hf.2.1)
  have hyes : s.anyMatches = true := hany.mpr (Or.inr ⟨f, hf.1⟩)
  rcases hbrackets with ⟨hno, -⟩ | ⟨-, hle, rfl, rfl⟩ | ⟨-, -, rfl, hl, -⟩
  · exact absurd hno (by simp [hyes])
  · have hsame : s.right = first := by omega
    rw [hresult, hsame, ← hright, hsame]
  · rcases hl with rfl | ⟨hfrom, hupto, htype⟩
    · rw [hresult, hleft, hright]
    · have hentry : EntryIn stab type first last left :=
        ⟨by omega, by have hbound := hf.1.2.1; omega, htype⟩
      have hmin := hf.2.2 left hentry (habove left hentry)
      omega

end Search

/-- Two line entries, one byte apart. -/
def adjacentLines (i : ℤ) : Stab :=
  if i ≤ 0 then ⟨0, nSline, 1, 10⟩ else ⟨0, nSline, 2, 11⟩

theorem adjacentLines_increasing : Increasing adjacentLines nSline 0 1 := by
  rintro i j ⟨hi, -, -⟩ ⟨-, hj, -⟩ hlt
  obtain rfl : i = 0 := by omega
  obtain rfl : j = 1 := by omega
  decide

theorem adjacentLines_second : FindsStab adjacentLines nSline 0 1 11 := by
  refine (findsStab_iff adjacentLines_increasing 11).mpr fun i _ _ => ⟨by decide, ?_⟩
  rintro j ⟨hlow, hhigh, -⟩ hvalue
  interval_cases j <;> exact absurd hvalue (by decide)

/-- The search for the first of two adjacent addresses returns the second entry. -/
theorem adjacentLines_first : ¬ ∀ (stab : ℤ → Stab) (type : BitVec 8) (first last : ℤ) (addr : Word),
    Increasing stab type first last → FindsStab stab type first last addr := by
  intro h
  obtain ⟨left, right, hresult, hfinds, -⟩ := h adjacentLines nSline 0 1 10 adjacentLines_increasing
  have hsecond : stabBinsearch (Stabs.within adjacentLines 0 1) nSline 0 1 10 = some (1, 1) := by
    decide
  obtain ⟨rfl, rfl⟩ := Prod.mk.inj (Option.some.inj (hsecond.symm.trans hresult))
  have hlast : LastUpTo adjacentLines nSline 0 1 10 0 := by
    refine ⟨⟨le_rfl, by decide, rfl⟩, by decide, ?_⟩
    rintro j ⟨hlow, hhigh, -⟩ hvalue
    interval_cases j
    · exact le_rfl
    · exact absurd hvalue (by decide)
  exact absurd (hfinds 0 hlast).1 (by decide)

end OsLabs.Jos
